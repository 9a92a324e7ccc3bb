/-
The parser accepts exactly what the grammar derives.

`parseFrom` is an automaton over a stack of open groups, so neither direction is an
induction on the text alone.

  * Completeness runs along the derivation.  Items that stand in an open group are
    pushed onto it one by one, whatever lies below the group and whatever follows
    them (`parseFrom_items`), because a group inside them is opened and closed again
    before the group around it is looked at.
  * Soundness runs along the tokens.  `Completes` says what the tokens still to come
    have to be for a given stack: the items that fill the innermost group, its closing
    parenthesis, and then the same for the groups below, of which the next one has
    gained the closed group as an item.  Every accepting run keeps that promise.

The end of the text may be a token of the stream or merely the point where the
tokens run out; `parseFrom_append_end` makes the two the same.
-/
import TinyLisp.Proofs.Grammar.Derivation

namespace TinyLisp.Grammar

/-! ### Groups and outcomes -/

@[simp] theorem Parse.after_outcome (reduced : List Production) (p : Parse) :
    (p.after reduced).outcome = p.outcome := rfl

@[simp] theorem Parse.reject_outcome (e : SyntaxError) : (Parse.reject e).outcome = .error e := rfl

/-- A finished expression is accepted at the end of the text and nowhere else. -/
theorem Parse.finish_eq_ok {v w : Value} {next : Token} :
    (Parse.finish v next).outcome = .ok w ↔ next.kind = .endOfInput ∧ v = w := by
  unfold Parse.finish
  by_cases h : next.kind = .endOfInput
  · simp [h]
  · simp [h]

/-- The group with several items more. -/
def Group.extend (g : Group) (vs : List Value) : Group :=
  { g with reversed := vs.reverse ++ g.reversed }

@[simp] theorem Group.extend_nil (g : Group) : g.extend [] = g := rfl

@[simp] theorem Group.extend_cons (g : Group) (v : Value) (vs : List Value) :
    g.extend (v :: vs) = (g.push v).extend vs := by
  simp [Group.extend, Group.push]

@[simp] theorem Group.extend_form (g : Group) (vs : List Value) :
    (g.extend vs).form = g.form := rfl

@[simp] theorem Group.extend_items (g : Group) (vs : List Value) :
    (g.extend vs).items = g.items ++ vs := by
  simp [Group.extend, Group.items]

@[simp] theorem Group.push_form (g : Group) (v : Value) : (g.push v).form = g.form := rfl

@[simp] theorem Group.push_items (g : Group) (v : Value) :
    (g.push v).items = g.items ++ [v] := by
  simp [Group.push, Group.items]

@[simp] theorem Group.new_items (opened : Place) (form : Form) :
    (Group.mk opened form []).items = [] := rfl

/-- Without a quote a group means the list of its items, whether it is a call or not. -/
@[simp] theorem formOf_false_value (next : Token) (vs : List Value) :
    (formOf false next).value vs = .list vs := by
  unfold formOf
  by_cases h : next.kind = .symbol
  · simp [h, Form.value]
  · simp [h, Form.value]

/-! ### One step of the automaton

What `parseFrom` does with the next token, one equation for each kind of token and
each kind of stack.  From here on nothing unfolds it.
-/

section Steps

variable {final : Token} {stack below : List Group} {g outer : Group} {b : Bool}
  {rest : List Token}

theorem parseFrom_quote {q l : Token} (hq : q.kind = .quote) (hl : l.kind = .leftParen) :
    parseFrom final stack b (q :: l :: rest)
      = parseFrom final (⟨l.place, .quoted, []⟩ :: stack) false rest := by
  obtain ⟨_, _, _, _⟩ := q
  obtain ⟨_, _, _, _⟩ := l
  cases hq
  cases hl
  -- a quoted group may stand at the top level
  cases stack with
  | nil => rfl
  | cons g below => rfl

theorem parseFrom_quote_ne {q : Token} (hq : q.kind = .quote)
    (hn : (rest.headD final).kind ≠ .leftParen) :
    parseFrom final stack b (q :: rest)
      = .reject (.unexpected (rest.headD final) (utf8 "(")) := by
  obtain ⟨_, _, _, _⟩ := q
  cases hq
  exact if_neg hn

theorem parseFrom_group {l : Token} (hl : l.kind = .leftParen) :
    parseFrom final (g :: below) false (l :: rest)
      = parseFrom final (⟨l.place, formOf false (rest.headD final), []⟩ :: g :: below)
          false rest := by
  obtain ⟨_, _, _, _⟩ := l
  cases hl
  rfl

/-- An unquoted group at the top level stands or falls with its form. -/
theorem parseFrom_top {l : Token} (hl : l.kind = .leftParen) :
    parseFrom final [] false (l :: rest)
      = if formOf false (rest.headD final) = .bare
          then .reject (.unexpected (rest.headD final) (utf8 "SYMBOL"))
          else parseFrom final [⟨l.place, formOf false (rest.headD final), []⟩] false rest := by
  obtain ⟨_, _, _, _⟩ := l
  cases hl
  show (if true && decide (formOf false (rest.headD final) = .bare) then _ else _) = _
  simp only [Bool.true_and, decide_eq_true_eq]

theorem parseFrom_call {l : Token} (hl : l.kind = .leftParen)
    (hs : (rest.headD final).kind = .symbol) :
    parseFrom final [] false (l :: rest)
      = parseFrom final [⟨l.place, .call, []⟩] false rest := by
  have hform : formOf false (rest.headD final) = .call := if_pos hs
  rw [parseFrom_top hl, hform]
  rfl

theorem parseFrom_bare {l : Token} (hl : l.kind = .leftParen)
    (hs : (rest.headD final).kind ≠ .symbol) :
    parseFrom final [] false (l :: rest)
      = .reject (.unexpected (rest.headD final) (utf8 "SYMBOL")) := by
  have hform : formOf false (rest.headD final) = .bare := if_neg hs
  rw [parseFrom_top hl, hform]
  rfl

theorem parseFrom_close {r : Token} (hr : r.kind = .rightParen) :
    (parseFrom final (g :: outer :: below) b (r :: rest)).outcome
      = (parseFrom final (outer.push (g.form.value g.items) :: below) false rest).outcome := by
  obtain ⟨_, _, _, _⟩ := r
  cases hr
  rfl

theorem parseFrom_close_last {r : Token} (hr : r.kind = .rightParen) :
    (parseFrom final [g] b (r :: rest)).outcome
      = (Parse.finish (g.form.value g.items) (rest.headD final)).outcome := by
  obtain ⟨_, _, _, _⟩ := r
  cases hr
  rfl

theorem parseFrom_close_nothing {r : Token} (hr : r.kind = .rightParen) :
    parseFrom final [] b (r :: rest) = .reject (.unexpected r (utf8 "expression")) := by
  obtain ⟨_, _, _, _⟩ := r
  cases hr
  rfl

theorem parseFrom_invalid {t : Token} (ht : t.kind = .invalid) :
    parseFrom final stack b (t :: rest) = .reject ⟨t, [], .invalidToken⟩ := by
  obtain ⟨_, _, _, _⟩ := t
  cases ht
  rfl

/-- An atom is pushed onto the innermost group, and at the top level it is the expression. -/
theorem parseFrom_of_isAtom {t : Token} (ht : t.kind.isAtom = true) :
    (parseFrom final stack b (t :: rest)).outcome =
      match stack with
      | [] => (Parse.finish t.value (rest.headD final)).outcome
      | g :: below => (parseFrom final (g.push t.value :: below) false rest).outcome := by
  obtain ⟨kind, _, _, _⟩ := t
  cases stack with
  | nil => cases kind <;> first | rfl | cases ht
  | cons g below => cases kind <;> first | rfl | cases ht

theorem parseFrom_atom {t : Token} (ht : t.kind.isAtom = true) :
    (parseFrom final (g :: below) b (t :: rest)).outcome
      = (parseFrom final (g.push t.value :: below) false rest).outcome :=
  parseFrom_of_isAtom ht

theorem parseFrom_atom_top {t : Token} (ht : t.kind.isAtom = true) :
    (parseFrom final [] b (t :: rest)).outcome
      = (Parse.finish t.value (rest.headD final)).outcome :=
  parseFrom_of_isAtom ht

theorem parseFrom_nil :
    parseFrom final [] b [] = (Parse.finish .nil final).after [.atomEmpty, .expAtom] := rfl

theorem parseFrom_nil_open :
    parseFrom final (g :: below) b []
      = .reject ⟨final, utf8 "matching ) for " ++ g.opened.render, .endOfInput⟩ := rfl

end Steps

/-! ### What the grammar derives is accepted -/

section Completeness

variable {final : Token} {below : List Group} {g : Group} {ts rest : List Token}

/-- **Items in an open group are pushed onto it**, whatever lies below and whatever follows. -/
theorem parseFrom_items {vs : List Value} (h : DerivesItems ts vs) :
    ∀ (g : Group) (below : List Group) (rest : List Token),
      (parseFrom final (g :: below) false (ts ++ rest)).outcome
        = (parseFrom final (g.extend vs :: below) false rest).outcome := by
  refine DerivesItems.induction (P := fun ts vs => ∀ g below rest,
    (parseFrom final (g :: below) false (ts ++ rest)).outcome
      = (parseFrom final (g.extend vs :: below) false rest).outcome) ⟨?_, ?_, ?_, ?_⟩ h
  · intro g below rest
    simp
  · intro t us vs ht ih g below rest
    rw [List.cons_append, parseFrom_atom ht, ih, Group.extend_cons]
  · intro l r ts us vs ws hl hr ihts ihus g below rest
    have hsplit : l :: (ts ++ r :: us) ++ rest = l :: (ts ++ r :: (us ++ rest)) := by simp
    rw [hsplit, parseFrom_group hl, ihts, parseFrom_close hr, ihus]
    simp
  · intro q l r ts us vs ws hq hl hr ihts ihus g below rest
    have hsplit : q :: l :: (ts ++ r :: us) ++ rest = q :: l :: (ts ++ r :: (us ++ rest)) := by
      simp
    rw [hsplit, parseFrom_quote hq hl, ihts, parseFrom_close hr, ihus]
    simp [Form.value]

/-- A group at the top level is a whole expression with its closing parenthesis. -/
theorem parseFrom_last_group {r : Token} {vs : List Value} (items : DerivesItems ts vs)
    (hr : r.kind = .rightParen) :
    (parseFrom final [g] false (ts ++ r :: rest)).outcome
      = (Parse.finish (g.form.value (g.items ++ vs)) (rest.headD final)).outcome := by
  rw [parseFrom_items items, parseFrom_close_last hr, Group.extend_form, Group.extend_items]

/-- **Behind an expression nothing but the end may follow**, and what follows does not change the
expression.  The empty one is left out: anything may follow that. -/
theorem parseFrom_expression {v : Value} (h : DerivesExp ts v) (hne : ts ≠ []) :
    (parseFrom final [] false (ts ++ rest)).outcome
      = (Parse.finish v (rest.headD final)).outcome := by
  cases h with
  | empty => exact absurd rfl hne
  | atom h =>
      obtain ⟨ht⟩ := h
      exact parseFrom_atom_top ht
  | quoted h =>
      obtain ⟨hq, hl, items, hr⟩ := h
      rw [List.cons_append, List.cons_append, List.cons_append, List.append_assoc,
        parseFrom_quote hq hl]
      exact parseFrom_last_group items hr
  | call h =>
      obtain ⟨hl, hs, items, hr⟩ := h
      have hatom : DerivesAtom [_] _ := .token (by rw [hs]; rfl)
      have hitems := DerivesItems.more (.atom hatom) items
      rw [List.cons_append, List.cons_append, List.append_assoc,
        parseFrom_call hl (by simpa using hs)]
      exact parseFrom_last_group hitems hr

/-- What the grammar derives as an expression is accepted with the value it derives. -/
theorem parseFrom_of_derivesExp {v : Value} (hf : final.kind = .endOfInput)
    (h : DerivesExp ts v) : (parseFrom final [] false ts).outcome = .ok v := by
  by_cases hne : ts = []
  · subst hne
    cases h with
    | empty =>
        rw [parseFrom_nil, Parse.after_outcome, Parse.finish_eq_ok]
        exact ⟨hf, rfl⟩
    | atom h => cases h
    | quoted h => cases h
    | call h => cases h
  · have hout : (parseFrom final [] false (ts ++ [])).outcome = (Parse.finish v final).outcome :=
      parseFrom_expression h hne
    rw [List.append_nil] at hout
    rw [hout, Parse.finish_eq_ok]
    exact ⟨hf, rfl⟩

end Completeness

/-! ### What is accepted is derived -/

/-- The tokens are the rest of a text in which the groups of the stack are open: they fill the
innermost group, close it as an item of the next one, and so on down to the last. -/
inductive Completes : List Group → List Token → Value → Prop
  | last {g : Group} {r : Token} {ts : List Token} {vs : List Value}
      (items : DerivesItems ts vs) (hr : r.kind = .rightParen) :
      Completes [g] (ts ++ [r]) (g.form.value (g.items ++ vs))
  | inner {g outer : Group} {below : List Group} {r : Token} {ts rest : List Token}
      {vs : List Value} {v : Value} (items : DerivesItems ts vs) (hr : r.kind = .rightParen)
      (outside : Completes (outer.push (g.form.value (g.items ++ vs)) :: below) rest v) :
      Completes (g :: outer :: below) (ts ++ r :: rest) v

section Soundness

variable {final : Token} {below : List Group} {g : Group} {ts us rest : List Token}
  {v w : Value}

/-- An item in front of the tokens that complete a stack belongs to its innermost group. -/
theorem Completes.item (item : DerivesItem ts w) (h : Completes (g.push w :: below) rest v) :
    Completes (g :: below) (ts ++ rest) v := by
  cases h with
  | last items hr =>
      have hlast := Completes.last (g := g) (.more item items) hr
      simpa using hlast
  | inner items hr outside =>
      rw [← List.append_assoc]
      refine Completes.inner (.more item items) hr ?_
      simpa using outside

/-- A group that has just been opened inside another one is completed to an item of it. -/
theorem Completes.opened {p : Place} {form : Form}
    (h : Completes (⟨p, form, []⟩ :: g :: below) rest v) :
    ∃ ts r us vs, rest = ts ++ r :: us ∧ DerivesItems ts vs ∧ r.kind = .rightParen ∧
      Completes (g.push (form.value vs) :: below) us v := by
  cases h with
  | inner items hr outside => exact ⟨_, _, _, _, rfl, items, hr, outside⟩

/-- Where no token of the stream ends the text, only running out of tokens does. -/
theorem eq_nil_of_next_end (hrest : ∀ t ∈ rest, t.kind ≠ .endOfInput)
    (h : (rest.headD final).kind = .endOfInput) : rest = [] := by
  cases rest with
  | nil => rfl
  | cons t rest => exact absurd h (hrest t (by simp))

/-- A token that the end of the text is not stands in the stream. -/
theorem eq_cons_of_next {kind : TokenKind} (hf : final.kind = .endOfInput)
    (hk : kind ≠ .endOfInput) (h : (rest.headD final).kind = kind) :
    ∃ t us, rest = t :: us ∧ t.kind = kind := by
  cases rest with
  | nil =>
      rw [List.headD_nil, hf] at h
      exact absurd h.symm hk
  | cons t us => exact ⟨t, us, rfl, by simpa using h⟩

/-- **Every accepting run completes its stack.**  The induction is on the number of tokens,
since a quote is shifted together with the parenthesis behind it. -/
theorem completes_of_parseFrom (hf : final.kind = .endOfInput) :
    ∀ (n : Nat) (ts : List Token) (g : Group) (below : List Group), ts.length ≤ n →
      (∀ t ∈ ts, t.kind ≠ .endOfInput) →
      (parseFrom final (g :: below) false ts).outcome = .ok v → Completes (g :: below) ts v := by
  intro n
  induction n with
  | zero =>
      intro ts g below hn _ h
      obtain rfl : ts = [] := List.eq_nil_of_length_eq_zero (by omega)
      rw [parseFrom_nil_open] at h
      simp at h
  | succ n ih =>
      intro ts g below hn hts h
      cases ts with
      | nil =>
          rw [parseFrom_nil_open] at h
          simp at h
      | cons t rest =>
          have hrest : ∀ u ∈ rest, u.kind ≠ .endOfInput := fun u hu => hts u (by simp [hu])
          have hlen : rest.length ≤ n := by simpa using hn
          have hatom : t.kind.isAtom = true → Completes (g :: below) (t :: rest) v := by
            intro ht
            rw [parseFrom_atom ht] at h
            exact Completes.item (.atom (.token ht)) (ih rest _ below hlen hrest h)
          cases hk : t.kind with
          | quote =>
              by_cases hnext : (rest.headD final).kind = .leftParen
              · obtain ⟨l, us, rfl, hl⟩ := eq_cons_of_next hf (by decide) hnext
                rw [parseFrom_quote hk hl] at h
                have hus : us.length ≤ n := by simp at hlen; omega
                have hopen := ih us _ _ hus (fun u hu => hrest u (by simp [hu])) h
                obtain ⟨ts, r, us', vs, rfl, items, hr, hout⟩ := hopen.opened
                have hitem := DerivesItem.quoted (.quote hk (.group hl items hr))
                simpa using Completes.item hitem hout
              · rw [parseFrom_quote_ne hk hnext] at h
                simp at h
          | leftParen =>
              rw [parseFrom_group hk] at h
              obtain ⟨ts, r, us, vs, rfl, items, hr, hout⟩ := (ih rest _ _ hlen hrest h).opened
              rw [formOf_false_value] at hout
              simpa using Completes.item (.list (.group hk items hr)) hout
          | rightParen =>
              cases below with
              | nil =>
                  rw [parseFrom_close_last hk, Parse.finish_eq_ok] at h
                  obtain ⟨hend, rfl⟩ := h
                  obtain rfl := eq_nil_of_next_end hrest hend
                  simpa using Completes.last (g := g) .empty hk
              | cons outer below =>
                  rw [parseFrom_close hk] at h
                  have hout := ih rest _ below hlen hrest h
                  exact Completes.inner (g := g) .empty hk (by simpa using hout)
          | endOfInput => exact absurd hk (hts t (by simp))
          | invalid =>
              rw [parseFrom_invalid hk] at h
              simp at h
          | _ => exact hatom (by rw [hk]; rfl)

/-- An item whose first token is a symbol is that symbol. -/
theorem DerivesItem.eq_symbol {s : Token} (h : DerivesItem ts v) (hts : ts ++ us = s :: rest)
    (hs : s.kind = .symbol) : ts = [s] ∧ v = s.value := by
  cases h with
  | atom h =>
      obtain ⟨ht⟩ := h
      obtain ⟨rfl, -⟩ := List.cons_eq_cons.mp hts
      exact ⟨rfl, rfl⟩
  | list h =>
      obtain ⟨hl, -, -⟩ := h
      obtain ⟨rfl, -⟩ := List.cons_eq_cons.mp hts
      simp [hl] at hs
  | quoted h =>
      obtain ⟨hq, -⟩ := h
      obtain ⟨rfl, -⟩ := List.cons_eq_cons.mp hts
      simp [hq] at hs
  | call h =>
      obtain ⟨hl, -, -, -⟩ := h
      obtain ⟨rfl, -⟩ := List.cons_eq_cons.mp hts
      simp [hl] at hs

/-- Items in front of a closing parenthesis whose first token is a symbol begin with it. -/
theorem DerivesItems.symbol_cons {s r : Token} {vs : List Value} (h : DerivesItems ts vs)
    (hts : ts ++ r :: us = s :: rest) (hr : r.kind = .rightParen) (hs : s.kind = .symbol) :
    ∃ ts' vs', ts = s :: ts' ∧ vs = s.value :: vs' ∧ DerivesItems ts' vs' := by
  cases h with
  | empty =>
      obtain ⟨rfl, -⟩ := List.cons_eq_cons.mp hts
      simp [hr] at hs
  | more item items =>
      rw [List.append_assoc] at hts
      obtain ⟨rfl, rfl⟩ := item.eq_symbol hts hs
      exact ⟨_, _, rfl, rfl, items⟩

/-- The tokens that complete a single group are its items and its closing parenthesis. -/
theorem Completes.single (h : Completes [g] rest v) :
    ∃ ts r vs, rest = ts ++ [r] ∧ DerivesItems ts vs ∧ r.kind = .rightParen ∧
      v = g.form.value (g.items ++ vs) := by
  cases h with
  | last items hr => exact ⟨_, _, _, rfl, items, hr, rfl⟩

/-- What is accepted as an expression is derived with the value it is accepted with. -/
theorem derivesExp_of_parseFrom (hf : final.kind = .endOfInput)
    (hts : ∀ t ∈ ts, t.kind ≠ .endOfInput)
    (h : (parseFrom final [] false ts).outcome = .ok v) : DerivesExp ts v := by
  cases ts with
  | nil =>
      rw [parseFrom_nil, Parse.after_outcome, Parse.finish_eq_ok] at h
      obtain ⟨-, rfl⟩ := h
      exact .empty
  | cons t rest =>
      have hrest : ∀ u ∈ rest, u.kind ≠ .endOfInput := fun u hu => hts u (by simp [hu])
      have hatom : t.kind.isAtom = true → DerivesExp (t :: rest) v := by
        intro ht
        rw [parseFrom_atom_top ht, Parse.finish_eq_ok] at h
        obtain ⟨hend, rfl⟩ := h
        obtain rfl := eq_nil_of_next_end hrest hend
        exact .atom (.token ht)
      cases hk : t.kind with
      | quote =>
          by_cases hnext : (rest.headD final).kind = .leftParen
          · obtain ⟨l, us, rfl, hl⟩ := eq_cons_of_next hf (by decide) hnext
            rw [parseFrom_quote hk hl] at h
            have hus : ∀ u ∈ us, u.kind ≠ .endOfInput := fun u hu => hrest u (by simp [hu])
            have hcomp := completes_of_parseFrom hf us.length us _ _ (Nat.le_refl _) hus h
            obtain ⟨ts, r, vs, rfl, items, hr, rfl⟩ := hcomp.single
            exact .quoted (.quote hk (.group hl items hr))
          · rw [parseFrom_quote_ne hk hnext] at h
            simp at h
      | leftParen =>
          by_cases hnext : (rest.headD final).kind = .symbol
          · obtain ⟨s, us, rfl, hs⟩ := eq_cons_of_next hf (by decide) hnext
            rw [parseFrom_call hk hnext] at h
            have hcomp := completes_of_parseFrom hf _ (s :: us) _ _ (Nat.le_refl _) hrest h
            obtain ⟨ts, r, vs, hsplit, items, hr, rfl⟩ := hcomp.single
            obtain ⟨ts', vs', rfl, rfl, items'⟩ := items.symbol_cons hsplit.symm hr hs
            rw [hsplit]
            exact .call (.call hk hs items' hr)
          · rw [parseFrom_bare hk hnext] at h
            simp at h
      | rightParen =>
          rw [parseFrom_close_nothing hk] at h
          simp at h
      | endOfInput => exact absurd hk (hts t (by simp))
      | invalid =>
          rw [parseFrom_invalid hk] at h
          simp at h
      | _ => exact hatom (by rw [hk]; rfl)

end Soundness

/-! ### The end of the text -/

/-- A token that ends the text may as well stand for the point where the tokens run out. -/
theorem parseFrom_append_end {final e : Token} (hf : final.kind = .endOfInput)
    (he : e.kind = .endOfInput) (ts : List Token) (stack : List Group) (b : Bool) :
    parseFrom final stack b (ts ++ [e]) = parseFrom e stack b ts := by
  have hnext : ∀ us : List Token, (us ++ [e]).headD final = us.headD e := by
    intro us
    cases us with
    | nil => rfl
    | cons u us => rfl
  induction ts generalizing stack b with
  | nil =>
      rw [List.nil_append, parseFrom.eq_def, parseFrom.eq_def]
      cases stack with
      | nil => simp [he, hf, parseFrom.stop, Parse.finish]
      | cons g below => simp [he, parseFrom.stop]
  | cons t rest ih =>
      rw [List.cons_append, parseFrom.eq_def, parseFrom.eq_def e]
      simp only [hnext, ih]

/-- The parser gives the token that stands for the missing end of a stream the right kind. -/
@[simp] theorem streamEnd_kind (tokens : List Token) : (streamEnd tokens).kind = .endOfInput := rfl

/-! ### The parser decides the grammar -/

/--
**The parser accepts exactly what the grammar derives, with the value it derives**, whether or
not the token stream holds its own end; whatever the grammar does not derive is rejected with
a syntax error.
-/
theorem parse_decides_grammar {ts : List Token} (hts : ∀ t ∈ ts, t.kind ≠ .endOfInput)
    {e : Token} (he : e.kind = .endOfInput) :
    (∀ v, (parse ts).outcome = .ok v ↔ DerivesExp ts v) ∧
      (∀ v, (parse (ts ++ [e])).outcome = .ok v ↔ DerivesExp ts v) ∧
      ((∀ v, ¬ DerivesExp ts v) → (∃ err, (parse ts).outcome = .error err) ∧
        ∃ err, (parse (ts ++ [e])).outcome = .error err) := by
  have hmain : ∀ final : Token, final.kind = .endOfInput → ∀ v,
      (parseFrom final [] false ts).outcome = .ok v ↔ DerivesExp ts v :=
    fun final hf v => ⟨derivesExp_of_parseFrom hf hts, parseFrom_of_derivesExp hf⟩
  have hbare := hmain (streamEnd ts) (streamEnd_kind ts)
  have hended : ∀ v, (parse (ts ++ [e])).outcome = .ok v ↔ DerivesExp ts v := by
    intro v
    rw [parse, parseFrom_append_end (streamEnd_kind _) he]
    exact hmain e he v
  refine ⟨hbare, hended, fun hnone => ⟨?_, ?_⟩⟩
  · cases hout : (parse ts).outcome with
    | ok v => exact absurd ((hbare v).mp hout) (hnone v)
    | error err => exact ⟨err, rfl⟩
  · cases hout : (parse (ts ++ [e])).outcome with
    | ok v => exact absurd ((hended v).mp hout) (hnone v)
    | error err => exact ⟨err, rfl⟩

/-- The tokens of `(f '(1) ())`, without their places. -/
def nestedCall : List Token :=
  [⟨.leftParen, [], .nil, .nowhere⟩, ⟨.symbol, [], .symbol [102], .nowhere⟩,
    ⟨.quote, [], .nil, .nowhere⟩, ⟨.leftParen, [], .nil, .nowhere⟩,
    ⟨.number, [], .int 1, .nowhere⟩, ⟨.rightParen, [], .nil, .nowhere⟩,
    ⟨.leftParen, [], .nil, .nowhere⟩, ⟨.rightParen, [], .nil, .nowhere⟩,
    ⟨.rightParen, [], .nil, .nowhere⟩]

/-- A call with a quoted list and an empty list in it is an expression, while the same tokens
without the last one are rejected. -/
theorem parse_decides_nestedCall :
    (∀ t ∈ nestedCall, t.kind ≠ .endOfInput) ∧ (Token.endOfInput .nowhere).kind = .endOfInput ∧
      DerivesExp nestedCall
        (.list [.symbol [102], .list [.symbol quoteName, .list [.int 1]], .list []]) ∧
      ∀ v, ¬ DerivesExp nestedCall.dropLast v := by
  have hkinds : ∀ t ∈ nestedCall, t.kind ≠ .endOfInput := by simp [nestedCall]
  have hcut : ∀ t ∈ nestedCall.dropLast, t.kind ≠ .endOfInput := by simp [nestedCall]
  have hend : (Token.endOfInput .nowhere).kind = .endOfInput := rfl
  refine ⟨hkinds, hend, ((parse_decides_grammar hkinds hend).1 _).mp rfl, fun v hv => ?_⟩
  have hout := ((parse_decides_grammar hcut hend).1 v).mpr hv
  cases hout

end TinyLisp.Grammar
