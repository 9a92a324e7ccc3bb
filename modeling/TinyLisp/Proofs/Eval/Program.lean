/-
Programs in a row.

A program is evaluated group by group, and what a group parses to is all that evaluation
sees of it (`evalGroups_eq`).  A program that succeeds consists of expressions only, so a
second one on the next line is cut and parsed as if it stood alone, further down.  Its
evaluation then starts on the machine that the first one leaves behind, and the receiver
of results has as many behind it as the first one delivered.

Two things keep this from being an equation between endings.  An error of the grammar
names its place, which has moved; everything else that ends a program is raised by an
expression or by the receiver, and comes out unchanged.  And what an output refuses may
depend on what it has taken before; where it refuses nothing, the second program does
behind the first what it does on any other machine of the same depth.
-/
import TinyLisp.Proofs.Eval.History
import TinyLisp.Proofs.Grammar.TopLevel
import TinyLisp.Registry.Builtins

namespace TinyLisp.Interpreter

open Machine Grammar

variable (i : Interpreter) (each : Nat → Value → Action Unit)

/-! ### What evaluation sees of a group -/

/-- Evaluates expressions one after another, up to the first error among them. -/
def evalOutcomes (each : Nat → Value → Action Unit) (count : Nat) :
    List (Except SyntaxError Value) → Machine → Delivery × Machine
  | [] => fun m => (⟨[], .ok ()⟩, m)
  | .error e :: _ => fun m => (⟨[], .error (.failure (.rejected e))⟩, m)
  | .ok expr :: rest =>
    andThen (i.eval expr []) fun
      | .error s => fun m => (⟨[], .error s⟩, m)
      | .ok v => andThen (each count v) fun
        | .error s => fun m => (⟨[v], .error s⟩, m)
        | .ok () => andThen (evalOutcomes each (count + 1) rest) fun d m =>
            (⟨v :: d.results, d.outcome⟩, m)

theorem evalGroups_eq (groups : List (List Token)) :
    ∀ count, i.evalGroups each count groups = i.evalOutcomes each count (outcomesOf groups) := by
  induction groups with
  | nil =>
      intro count
      rfl
  | cons group rest ih =>
      intro count
      have hcons : outcomesOf (group :: rest) = (parse group).outcome :: outcomesOf rest := rfl
      rw [hcons]
      cases hp : (parse group).outcome with
      | error e => exact i.evalGroups_cons_error hp each count rest
      | ok expr =>
          rw [i.evalGroups_cons hp, ih (count + 1)]
          rfl

theorem evalProgram_eq {source text : Bytes} {tokens : List Token}
    (ht : Token.tokenize source text = .ok tokens) :
    i.evalProgram source text each = i.evalOutcomes each 0 (outcomes tokens) := by
  rw [i.evalProgram_ok ht, evalGroups_eq]
  rfl

/-- An expression or the receiver can end a program with `s`. -/
def Raises (s : Stop) : Prop :=
  (∃ expr m, (i.eval expr [] m).1 = .error s) ∨ ∃ n v m, (each n v m).1 = .error s

/-- An expression either ends the program, whatever follows, or adds one result to what follows
delivers from the machine it leaves. -/
theorem evalOutcomes_step (count : Nat) (expr : Value) (m : Machine) :
    (∃ vs s m', i.Raises each s ∧ ∀ rest,
      i.evalOutcomes each count (.ok expr :: rest) m = (⟨vs, .error s⟩, m')) ∨
    ∃ v m', ∀ rest, i.evalOutcomes each count (.ok expr :: rest) m =
      andThen (i.evalOutcomes each (count + 1) rest)
        (fun d m => (⟨v :: d.results, d.outcome⟩, m)) m' := by
  rcases he : i.eval expr [] m with ⟨_ | v, m₁⟩
  · rename_i s
    refine .inl ⟨[], s, m₁, .inl ⟨expr, m, by rw [he]⟩, fun rest => ?_⟩
    simp only [evalOutcomes, andThen, he]
  · rcases ht : each count v m₁ with ⟨_ | u, m₂⟩
    · rename_i s
      refine .inl ⟨[v], s, m₂, .inr ⟨count, v, m₁, by rw [ht]⟩, fun rest => ?_⟩
      simp only [evalOutcomes, andThen, he, ht]
    · refine .inr ⟨v, m₂, fun rest => ?_⟩
      simp only [evalOutcomes, andThen, he, ht]

/-! ### One after the other -/

/-- A program that succeeds consists of expressions. -/
theorem expressions_of_done (os : List (Except SyntaxError Value)) :
    ∀ {count : Nat} {m : Machine}, (i.evalOutcomes each count os m).1.outcome = .ok () →
      ∀ o ∈ os, ∃ v, o = .ok v := by
  induction os with
  | nil =>
      intro count m _ o ho
      cases ho
  | cons first rest ih =>
      intro count m h
      cases first with
      | error e => cases h
      | ok expr =>
          rcases i.evalOutcomes_step each count expr m with ⟨vs, s, m', -, hstop⟩ | ⟨v, m', hgo⟩
          · rw [hstop] at h
            cases h
          · rw [hgo] at h
            exact List.forall_mem_cons.mpr ⟨⟨expr, rfl⟩, ih h⟩

/-- **Behind a program that succeeds the next one starts on the machine it leaves**, with the
results counted on. -/
theorem evalOutcomes_append (os later : List (Except SyntaxError Value)) :
    ∀ {count : Nat} {m m' : Machine} {vs : List Value},
      i.evalOutcomes each count os m = (⟨vs, .ok ()⟩, m') →
      i.evalOutcomes each count (os ++ later) m =
        andThen (i.evalOutcomes each (count + vs.length) later)
          (fun d m => (⟨vs ++ d.results, d.outcome⟩, m)) m' := by
  induction os with
  | nil =>
      intro count m m' vs h
      cases h
      rfl
  | cons first rest ih =>
      intro count m m' vs h
      cases first with
      | error e => cases h
      | ok expr =>
          rcases i.evalOutcomes_step each count expr m with ⟨vs, s, m₁, -, hstop⟩ | ⟨v, m₁, hgo⟩
          · rw [hstop] at h
            cases h
          · rw [hgo] at h
            rw [List.cons_append, hgo]
            rcases hrest : i.evalOutcomes each (count + 1) rest m₁ with ⟨⟨ws, o⟩, m₂⟩
            simp only [andThen, hrest] at h
            cases h
            have hcount : count + (v :: ws).length = count + 1 + ws.length := by
              simp only [List.length_cons]
              omega
            rw [andThen, ih hrest, hcount]
            rfl

/-- Counting on is counting from zero for a receiver that knows what came before. -/
theorem evalOutcomes_counted (k : Nat) (os : List (Except SyntaxError Value)) :
    ∀ count, i.evalOutcomes each (k + count) os
      = i.evalOutcomes (fun n => each (k + n)) count os := by
  induction os with
  | nil =>
      intro count
      rfl
  | cons first rest ih =>
      intro count
      cases first with
      | error e => rfl
      | ok expr =>
          rw [evalOutcomes, evalOutcomes, Nat.add_assoc, ih (count + 1)]

/-! ### Further down -/

/-- The same ending as many lines further down. -/
inductive EndsAlike (lines : Nat) : Except Stop Unit → Except Stop Unit → Prop
  /-- Both succeed. -/
  | done : EndsAlike lines (.ok ()) (.ok ())
  /-- The text is rejected: the cause and the token are the same, and places move. -/
  | rejected {e e' : SyntaxError} (h : e.Below lines e') :
      EndsAlike lines (.error (.failure (.rejected e))) (.error (.failure (.rejected e')))
  /-- Anything else is the same error. -/
  | raised {s : Stop} (h : i.Raises each s) : EndsAlike lines (.error s) (.error s)

/-- The same expressions up to an error further down: the same results, the same machine and
the same ending further down. -/
theorem evalOutcomes_below {lines : Nat} {os os' : List (Except SyntaxError Value)}
    (h : List.Forall₂ (OutcomeBelow lines) os os') :
    ∀ (count : Nat) (m : Machine),
      let run := i.evalOutcomes each count os m
      let moved := i.evalOutcomes each count os' m
      moved.1.results = run.1.results ∧ moved.2 = run.2 ∧
        i.EndsAlike each lines run.1.outcome moved.1.outcome := by
  induction h with
  | nil =>
      intro count m
      exact ⟨rfl, rfl, .done⟩
  | cons hfirst _ ih =>
      intro count m
      cases hfirst with
      | error h => exact ⟨rfl, rfl, .rejected h⟩
      | ok expr =>
          rcases i.evalOutcomes_step each count expr m with
            ⟨vs, s, m', hraises, hstop⟩ | ⟨v, m', hgo⟩
          · rw [hstop, hstop]
            exact ⟨rfl, rfl, .raised hraises⟩
          · obtain ⟨hresults, hmachine, hends⟩ := ih (count + 1) m'
            rw [hgo, hgo]
            exact ⟨congrArg (v :: ·) hresults, hmachine, hends⟩

/-! ### Texts in a row -/

/-- A text on the line behind a program that succeeds. -/
theorem evalProgram_behind {source first second : Bytes} {tokens : List Token} {m m' : Machine}
    {vs : List Value} (hfirst : i.evalProgram source first each m = (⟨vs, .ok ()⟩, m'))
    (hsecond : Token.tokenize source second = .ok tokens) :
    let later := fun n => each (vs.length + n)
    let behind := i.evalProgram source second later m'
    let both := i.evalProgram source (first.line ++ second) each m
    both.1.results = vs ++ behind.1.results ∧ both.2 = behind.2 ∧
      i.EndsAlike later (first.line.count Byte.lineFeed) behind.1.outcome both.1.outcome := by
  intro later behind both
  cases hts : Token.tokenize source first with
  | error e =>
      rw [i.evalProgram_error hts] at hfirst
      cases hfirst
  | ok ts =>
      rw [i.evalProgram_eq each hts] at hfirst
      have hdone : (i.evalOutcomes each 0 (outcomes ts) m).1.outcome = .ok () := by rw [hfirst]
      obtain ⟨tokens', moved, htokens', hsplit, hmoved⟩ :=
        outcomes_line hts hsecond (i.expressions_of_done each _ hdone)
      have hbehind : behind = i.evalOutcomes later 0 (outcomes tokens) m' := by
        rw [← i.evalProgram_eq later hsecond]
      have hcount : i.evalOutcomes each (0 + vs.length) moved = i.evalOutcomes later 0 moved := by
        rw [Nat.zero_add]
        exact i.evalOutcomes_counted each vs.length moved 0
      have hboth : both = andThen (i.evalOutcomes later 0 moved)
          (fun d m => (⟨vs ++ d.results, d.outcome⟩, m)) m' := by
        rw [← hcount, ← i.evalOutcomes_append each _ moved hfirst, ← hsplit,
          ← i.evalProgram_eq each htokens']
      obtain ⟨hresults, hmachine, hends⟩ := i.evalOutcomes_below later hmoved 0 m'
      rw [← hbehind] at hresults hmachine hends
      rw [hboth]
      exact ⟨congrArg (vs ++ ·) hresults, hmachine, hends⟩

theorem evalProgram_definite (d : Nat) (receive : Nat → Value → Procedure) (source text : Bytes) :
    Definite d _ (i.evalProgram source text (i.handing receive)) :=
  evalProgram_kept (keptInRow_definite d) (i.eval_definite d)
    (handing_kept (keptInRow_definite d) (i.perform_definite d) receive) source text

/-- **Evaluating a program is compositional.**  If `first` succeeds and `second` can be cut into
tokens, then the two on separate lines deliver the results of `first` and then those of
`second` behind it, leave the machine as `second` does, and end as it does, with the places
of syntax errors moved down by the lines of `first`.  On an output that refuses nothing
`second` delivers and writes there what it does on its own. -/
theorem evalProgram_line (receive : Nat → Value → Procedure) {source first second : Bytes}
    {tokens : List Token} {m : Machine}
    (hfirst : (i.evalProgram source first (i.handing receive) m).1.outcome = .ok ())
    (hsecond : Token.tokenize source second = .ok tokens) :
    let before := i.evalProgram source first (i.handing receive) m
    let later := i.handing fun n => receive (before.1.results.length + n)
    let behind := i.evalProgram source second later before.2
    let both := i.evalProgram source (first.line ++ second) (i.handing receive) m
    both.1.results = before.1.results ++ behind.1.results ∧
      both.2 = behind.2 ∧
      i.EndsAlike later (first.line.count Byte.lineFeed) behind.1.outcome both.1.outcome ∧
      (m.out.NeverRefuses → ∀ other : Machine, other.depth = m.depth → other.out.NeverRefuses →
        let alone := i.evalProgram source second later other
        behind.1 = alone.1 ∧ ∃ lines,
          alone.2.out.chunks = other.out.chunks ++ lines ∧
          both.2.out.chunks = before.2.out.chunks ++ lines) := by
  intro before later behind both
  have hbefore : before = (⟨before.1.results, .ok ()⟩, before.2) := by
    rw [← hfirst]
  obtain ⟨hresults, (hmachine : both.2 = behind.2), hends⟩ :=
    i.evalProgram_behind (i.handing receive) hbefore hsecond
  refine ⟨hresults, hmachine, hends, ?_⟩
  intro hout other hdepth hother alone
  -- `first` comes back to the depth it started from, on an output that still refuses nothing
  obtain ⟨_, lines, hsays⟩ := i.evalProgram_definite m.depth receive source first
  obtain ⟨-, hafter, hback⟩ := hsays m rfl hout
  have hgood : before.2.out.NeverRefuses := by
    rw [hafter]
    exact hout.taking lines
  obtain ⟨hsame, written, (hbehind : behind.2.out = before.2.out.taking written), halone⟩ :=
    (i.evalProgram_definite m.depth _ source second).alike hback hdepth hgood hother
  refine ⟨hsame, written, ?_, ?_⟩
  · rw [halone, Sink.chunks_taking]
  · rw [hmachine, hbehind, Sink.chunks_taking]

/-- One expression and a comment that is still open. -/
def endsInComment : Bytes := utf8 "(print nil) ; (no more"

/-- One expression and a parenthesis that is still open. -/
def endsInList : Bytes := utf8 "(print (list))\n(list"

/-- Programs are evaluated with the functions that are built in. -/
def plain : Interpreter := .new Registry.builtins 10 false

/-- Evaluates a text from a fresh machine; nobody objects to a result. -/
def runText (text : Bytes) : Delivery × Machine :=
  plain.evalProgram [] text (plain.handing fun _ v => .value v) (.idle .reliable .reliable none)

theorem exists_ok_of_isOk {ε α : Type} {r : Except ε α} (h : r.isOk = true) :
    ∃ a, r = .ok a := by
  cases r with
  | ok a => exact ⟨a, rfl⟩
  | error e => cases h

/-- The comment ends with its line, so the second program is evaluated as it is alone; it is
rejected at the end of the text, and one line further down. -/
theorem evalProgram_line_endsInComment :
    (runText endsInComment).1.outcome = .ok () ∧
      (∃ tokens, Token.tokenize [] endsInList = .ok tokens) ∧
      (runText (endsInComment.line ++ endsInList)).1.outcome.isOk = false ∧
      plain.EndsAlike (plain.handing fun _ v => .value v) 1 (runText endsInList).1.outcome
        (runText (endsInComment.line ++ endsInList)).1.outcome ∧
      (runText (endsInComment.line ++ endsInList)).2.out.chunks
        = (runText endsInComment).2.out.chunks ++ (runText endsInList).2.out.chunks := by
  have hdone : (runText endsInComment).1.outcome.isOk = true := by decide +kernel
  have hcut : (Token.tokenize [] endsInList).isOk = true := by decide +kernel
  obtain ⟨u, hfirst⟩ := exists_ok_of_isOk hdone
  obtain ⟨tokens, hsecond⟩ := exists_ok_of_isOk hcut
  obtain ⟨-, -, hends, halone⟩ := plain.evalProgram_line (fun _ v => .value v) hfirst hsecond
  obtain ⟨hsame, lines, hlines, hboth⟩ := halone Sink.neverRefuses_reliable
    (.idle .reliable .reliable none) rfl Sink.neverRefuses_reliable
  have hrun : ∀ text, plain.evalProgram [] text (plain.handing fun _ v => .value v)
      (.idle .reliable .reliable none) = runText text := fun _ => rfl
  simp only [hrun] at hsame hends hlines hboth
  rw [hsame] at hends
  refine ⟨hfirst, ⟨tokens, hsecond⟩, by decide +kernel, hends, ?_⟩
  rw [hboth, hlines]
  rfl

end TinyLisp.Interpreter
