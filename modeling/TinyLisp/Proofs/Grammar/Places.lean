/-
Parsing further down.

The parser looks at the kinds of tokens and at their values.  It reads no place; it only
copies the place of the token at which it stops, and that of the parenthesis that is
still open, into the error.  So the same tokens some lines further down are accepted
with the same value, or rejected for the same cause at the same token, and the error
differs in those two places alone.

What an error expects is a text, and only where a parenthesis is not closed does it hold
a place.  `SyntaxError.Below` therefore goes through the errors that the parser makes.
-/
import TinyLisp.Proofs.Grammar.Parsing
import TinyLisp.Proofs.Token.Lines

namespace TinyLisp

/-- The same error as many lines further down. -/
inductive SyntaxError.Below (lines : Nat) : SyntaxError → SyntaxError → Prop
  /-- Something is no token. -/
  | invalid (t : Token) : Below lines ⟨t, [], .invalidToken⟩ ⟨t.below lines, [], .invalidToken⟩
  /-- A token stands, or the text ends, where something else has to come. -/
  | unexpected (t : Token) {expected : Bytes}
      (h : expected ∈ [utf8 "(", utf8 "SYMBOL", utf8 "expression", utf8 "end of input"]) :
      Below lines (.unexpected t expected) (.unexpected (t.below lines) expected)
  /-- The text ends while a parenthesis is open. -/
  | unclosed (t : Token) (opened : Place) :
      Below lines ⟨t, utf8 "matching ) for " ++ opened.render, .endOfInput⟩
        ⟨t.below lines, utf8 "matching ) for " ++ (opened.below lines).render, .endOfInput⟩

namespace Grammar

/-- The same value, or the same error as many lines further down. -/
inductive OutcomeBelow (lines : Nat) : Except SyntaxError Value → Except SyntaxError Value → Prop
  | ok (v : Value) : OutcomeBelow lines (.ok v) (.ok v)
  | error {e e' : SyntaxError} (h : e.Below lines e') : OutcomeBelow lines (.error e) (.error e')

/-- The group as many lines further down. -/
def Group.below (lines : Nat) (g : Group) : Group := { g with opened := g.opened.below lines }

section

variable (lines : Nat)

theorem headD_below (rest : List Token) (final : Token) :
    (rest.map (Token.below lines)).headD (final.below lines)
      = (rest.headD final).below lines := by
  cases rest with
  | nil => rfl
  | cons t rest => rfl

theorem Parse.finish_below (v : Value) (next : Token) :
    OutcomeBelow lines (Parse.finish v next).outcome
      (Parse.finish v (next.below lines)).outcome := by
  unfold Parse.finish
  by_cases h : next.kind = .endOfInput
  · have h' : (next.below lines).kind = .endOfInput := h
    rw [if_pos h, if_pos h']
    exact .ok v
  · have h' : ¬ (next.below lines).kind = .endOfInput := h
    rw [if_neg h, if_neg h']
    exact .error (.unexpected next (by simp))

theorem stop_below (t : Token) (stack : List Group) (next : Token) :
    OutcomeBelow lines (parseFrom.stop t stack next).outcome
      (parseFrom.stop (t.below lines) (stack.map (Group.below lines))
        (next.below lines)).outcome := by
  cases stack with
  | nil => exact Parse.finish_below lines .nil next
  | cons g below => exact .error (.unclosed t g.opened)

/-- **The same tokens further down are parsed alike.**  The induction is on the tokens; the
stack has moved with them. -/
theorem parseFrom_below (final : Token) (ts : List Token) :
    ∀ (stack : List Group) (b : Bool),
      OutcomeBelow lines (parseFrom final stack b ts).outcome
        (parseFrom (final.below lines) (stack.map (Group.below lines)) b
          (ts.map (Token.below lines))).outcome := by
  induction ts with
  | nil =>
      intro stack b
      exact stop_below lines final stack final
  | cons t rest ih =>
      intro stack b
      have hkind : (t.below lines).kind = t.kind := rfl
      rw [List.map_cons, parseFrom.eq_def, parseFrom.eq_def (final.below lines)]
      simp only [hkind, headD_below]
      cases hk : t.kind with
      | quote =>
          by_cases hn : (rest.headD final).kind = .leftParen
          · have hn' : ((rest.headD final).below lines).kind = .leftParen := hn
            simp only [if_pos hn, if_pos hn']
            exact ih stack true
          · have hn' : ¬ ((rest.headD final).below lines).kind = .leftParen := hn
            simp only [if_neg hn, if_neg hn']
            exact .error (.unexpected _ (by simp))
      | leftParen =>
          have hform : formOf b ((rest.headD final).below lines) = formOf b (rest.headD final) :=
            rfl
          have hempty : (stack.map (Group.below lines)).isEmpty = stack.isEmpty := by simp
          simp only [hform, hempty]
          by_cases hbare : (stack.isEmpty && decide (formOf b (rest.headD final) = .bare)) = true
          · simp only [if_pos hbare]
            exact .error (.unexpected _ (by simp))
          · simp only [if_neg hbare]
            exact ih (⟨t.place, formOf b (rest.headD final), []⟩ :: stack) false
      | rightParen =>
          rcases stack with _ | ⟨g, _ | ⟨outer, below⟩⟩
          · exact .error (.unexpected t (by simp))
          · exact Parse.finish_below lines _ _
          · exact ih (outer.push (g.form.value g.items) :: below) false
      | endOfInput => exact stop_below lines t stack _
      | invalid => exact .error (.invalid t)
      | _ =>
          -- an atom
          cases stack with
          | nil => exact Parse.finish_below lines _ _
          | cons g below => exact ih (g.push t.value :: below) false

/-- A group of tokens further down is parsed alike, with the end it has or is given. -/
theorem parse_below {ts : List Token} (h : ts ≠ []) :
    OutcomeBelow lines (parse ts).outcome (parse (ts.map (Token.below lines))).outcome := by
  have hend : streamEnd (ts.map (Token.below lines)) = (streamEnd ts).below lines := by
    unfold streamEnd
    rw [List.getLast?_map, List.getLast?_eq_some_getLast h]
    rfl
  unfold parse
  rw [hend]
  exact parseFrom_below lines (streamEnd ts) ts [] false

end

end Grammar

end TinyLisp
