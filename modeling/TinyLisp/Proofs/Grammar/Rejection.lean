/-
Errors are reported at the earliest possible token.

The parser stops at a token as soon as no expression begins with the tokens up to it, and
not before: what it has read until then is always the beginning of some expression.  Where
the tokens run out instead, they are the beginning of a longer expression.

`RejectedAt` states this for a state of the parser, given what is accepted from there on.
One step of the parser takes it from the state behind a token to the one in front of it
(`RejectedAt.behind`), so the induction is the parser's own.  What is accepted while groups
are open depends only on how many they are (`accepts_congr`), and any number of open groups
can be closed (`accepts_closing`); that is where the continuations come from.

At the top level one token more is needed.  A group there must be a call or quoted, which
the token behind its parenthesis decides, so a continuation may have to begin with a symbol.
-/
import Mathlib
import TinyLisp.Proofs.Grammar.TopLevel
import TinyLisp.Proofs.Token.Order

namespace TinyLisp.Grammar

/-! ### What is accepted from a state -/

/-- The parse ends with an expression. -/
def Parse.Accepts (p : Parse) : Prop := ∃ v, p.outcome = .ok v

theorem not_accepts_reject (e : SyntaxError) : ¬ (Parse.reject e).Accepts := by
  rintro ⟨v, hv⟩
  cases hv

theorem accepts_finish {v : Value} {next : Token} :
    (Parse.finish v next).Accepts ↔ next.kind = .endOfInput := by
  constructor
  · rintro ⟨w, hw⟩
    exact (Parse.finish_eq_ok.mp hw).1
  · intro h
    exact ⟨v, Parse.finish_eq_ok.mpr ⟨h, rfl⟩⟩

theorem accepts_of_outcome_eq {p q : Parse} (h : p.outcome = q.outcome) :
    p.Accepts ↔ q.Accepts := by
  unfold Parse.Accepts
  rw [h]

/-- Whether a parse ends with an expression depends on the number of open groups only. -/
theorem accepts_congr {final : Token} (ts : List Token) :
    ∀ {stack stack' : List Group} (b : Bool), stack.length = stack'.length →
      ((parseFrom final stack b ts).Accepts ↔ (parseFrom final stack' b ts).Accepts) := by
  have hstop : ∀ (t next : Token) {stack stack' : List Group}, stack.length = stack'.length →
      ((parseFrom.stop t stack next).Accepts ↔ (parseFrom.stop t stack' next).Accepts) := by
    intro t next stack stack' h
    cases stack with
    | nil =>
        obtain rfl := List.length_eq_zero_iff.mp h.symm
        rfl
    | cons g below =>
        obtain ⟨g', below', rfl⟩ := List.exists_cons_of_length_eq_add_one h.symm
        exact iff_of_false (not_accepts_reject _) (not_accepts_reject _)
  induction ts with
  | nil =>
      intro stack stack' b h
      exact hstop final final h
  | cons t rest ih =>
      intro stack stack' b h
      rw [parseFrom.eq_def, parseFrom.eq_def final stack']
      cases hk : t.kind with
      | quote =>
          simp only [hk]
          split
          · exact ih true h
          · rfl
      | leftParen =>
          have hempty : stack'.isEmpty = stack.isEmpty := by
            rw [Bool.eq_iff_iff, List.isEmpty_iff_length_eq_zero, List.isEmpty_iff_length_eq_zero, h]
          simp only [hk, hempty]
          split
          · rfl
          · exact ih false (by simp [h])
      | rightParen =>
          simp only [hk]
          rcases stack with _ | ⟨g, _ | ⟨outer, below⟩⟩
          · obtain rfl := List.length_eq_zero_iff.mp h.symm
            rfl
          · obtain ⟨g', rfl⟩ := List.length_eq_one_iff.mp h.symm
            exact accepts_finish.trans accepts_finish.symm
          · obtain ⟨g', outer', below', rfl⟩ : ∃ g' outer' below', stack' = g' :: outer' :: below' := by
              match stack', h with
              | g' :: outer' :: below', _ => exact ⟨g', outer', below', rfl⟩
            exact ih false (by simpa using h)
      | endOfInput =>
          simp only [hk]
          exact hstop t _ h
      | invalid => simp only [hk]
      | _ =>
          -- an atom
          simp only [hk]
          cases stack with
          | nil =>
              obtain rfl := List.length_eq_zero_iff.mp h.symm
              rfl
          | cons g below =>
              obtain ⟨g', below', rfl⟩ := List.exists_cons_of_length_eq_add_one h.symm
              exact ih false (by simpa using h)

/-! ### Continuations -/

/-- An opening parenthesis. -/
def opener : Token := ⟨.leftParen, utf8 "(", .nil, .nowhere⟩

/-- A closing parenthesis. -/
def closer : Token := ⟨.rightParen, utf8 ")", .nil, .nowhere⟩

/-- Some symbol. -/
def someSymbol : Token := ⟨.symbol, utf8 "f", .symbol (utf8 "f"), .nowhere⟩

/-- Tokens among which no end stands. -/
def Endless (ts : List Token) : Prop := ∀ t ∈ ts, t.kind ≠ .endOfInput

theorem endless_nil : Endless [] := by
  intro t ht
  simp at ht

theorem endless_cons {t : Token} {ts : List Token} :
    Endless (t :: ts) ↔ t.kind ≠ .endOfInput ∧ Endless ts := by
  simp [Endless]

theorem endless_append {ts us : List Token} : Endless (ts ++ us) ↔ Endless ts ∧ Endless us :=
  List.forall_mem_append

theorem endless_closing (n : Nat) : Endless (List.replicate n closer) := by
  intro t ht
  obtain ⟨-, rfl⟩ := List.mem_replicate.mp ht
  decide

section

variable {final : Token}

/-- **Open groups can be closed.** -/
theorem accepts_closing (hf : final.kind = .endOfInput) (below : List Group) :
    ∀ g : Group, (parseFrom final (g :: below) false
      (List.replicate (below.length + 1) closer)).Accepts := by
  induction below with
  | nil =>
      intro g
      have hlast : (parseFrom final [g] false [closer]).outcome
          = (Parse.finish (g.form.value g.items) final).outcome := parseFrom_close_last rfl
      exact (accepts_of_outcome_eq hlast).mpr (accepts_finish.mpr hf)
  | cons outer below ih =>
      intro g
      rw [List.length_cons, List.replicate_succ]
      exact (accepts_of_outcome_eq (parseFrom_close rfl)).mpr (ih _)

/-- A quote goes on with a list, whatever is open. -/
theorem accepts_quote (hf : final.kind = .endOfInput) {q : Token} (hq : q.kind = .quote)
    (stack : List Group) : (parseFrom final stack false
      (q :: opener :: List.replicate (stack.length + 1) closer)).Accepts := by
  rw [parseFrom_quote hq rfl]
  exact accepts_closing hf stack _

/-- A parenthesis at the top level goes on with a symbol. -/
theorem accepts_call (hf : final.kind = .endOfInput) {l : Token} (hl : l.kind = .leftParen) :
    (parseFrom final [] false [l, someSymbol, closer]).Accepts := by
  rw [parseFrom_call hl rfl]
  exact (accepts_of_outcome_eq (parseFrom_atom rfl)).mpr (accepts_closing hf [] _)

end

/-! ### Rejection at a token -/

/-- Where `A` says what is accepted, the tokens `ts` are rejected at the token `t`: the tokens
before it are the beginning of something accepted, and the tokens up to it are not.  At the end
the tokens as a whole are such a beginning, of something longer. -/
inductive RejectedAt (A : List Token → Prop) (final : Token) :
    List Token → Token → SyntaxCause → Prop
  | atEnd {ts more : List Token} (hmore : more ≠ []) (hendless : Endless more)
      (hgood : A (ts ++ more)) : RejectedAt A final ts final .endOfInput
  | atToken {before after more : List Token} {t : Token} (hendless : Endless more)
      (hgood : A (before ++ more)) (hdead : ∀ later, ¬ A (before ++ t :: later)) :
      RejectedAt A final (before ++ t :: after) t .unexpectedToken

section

variable {A B : List Token → Prop} {final t : Token} {ts rest : List Token}
  {cause : SyntaxCause}

/-- A rejection behind some tokens is a rejection in front of them. -/
theorem RejectedAt.behind (h : RejectedAt A final ts t cause) (front : List Token)
    (hA : ∀ us, A us ↔ B (front ++ us)) : RejectedAt B final (front ++ ts) t cause := by
  cases h with
  | atEnd hmore hendless hgood =>
      refine .atEnd hmore hendless ?_
      rw [List.append_assoc]
      exact (hA _).mp hgood
  | atToken hendless hgood hdead =>
      rw [← List.append_assoc]
      refine .atToken hendless ?_ ?_
      · rw [List.append_assoc]
        exact (hA _).mp hgood
      · intro later hlater
        rw [List.append_assoc] at hlater
        exact hdead later ((hA _).mpr hlater)

theorem unexpected_cause {u : Token} (expected : Bytes) (hu : u.kind ≠ .endOfInput) :
    (SyntaxError.unexpected u expected).cause = .unexpectedToken :=
  if_neg hu

/-- No token of this kind fits behind `ts`, and the text does not end there either, while other
tokens do fit. -/
theorem rejectedAt_next (ts : List Token) {more : List Token} {expected : Bytes}
    (hf : final.kind = .endOfInput) (hrest : Endless rest) (hmore : more ≠ [])
    (hendless : Endless more) (hgood : A (ts ++ more))
    (hdead : ∀ u later, u.kind = (rest.headD final).kind → ¬ A (ts ++ u :: later)) :
    RejectedAt A final (ts ++ rest) (SyntaxError.unexpected (rest.headD final) expected).token
      (SyntaxError.unexpected (rest.headD final) expected).cause := by
  cases rest with
  | nil =>
      have hcause : (SyntaxError.unexpected final expected).cause = .endOfInput := if_pos hf
      rw [List.append_nil, List.headD_nil, hcause]
      exact .atEnd hmore hendless hgood
  | cons u us =>
      have hu : u.kind ≠ .endOfInput := hrest u (by simp)
      rw [List.headD_cons, unexpected_cause expected hu]
      exact .atToken hendless hgood fun later => hdead u later rfl

/-- A whole expression has been read, and something follows it. -/
theorem rejectedAt_finish (ts : List Token) {v : Value} {e : SyntaxError}
    (hf : final.kind = .endOfInput) (hrest : Endless rest)
    (hA : ∀ us, A (ts ++ us) ↔ (us.headD final).kind = .endOfInput)
    (h : (Parse.finish v (rest.headD final)).outcome = .error e) :
    RejectedAt A final (ts ++ rest) e.token e.cause := by
  cases rest with
  | nil =>
      have hok : (Parse.finish v final).outcome = .ok v := Parse.finish_eq_ok.mpr ⟨hf, rfl⟩
      rw [List.headD_nil, hok] at h
      cases h
  | cons u us =>
      have hu : u.kind ≠ .endOfInput := hrest u (by simp)
      have herr : (Parse.finish v u).outcome
          = .error (.unexpected u (utf8 "end of input")) := by
        unfold Parse.finish
        rw [if_neg hu]
        rfl
      rw [List.headD_cons, herr] at h
      obtain rfl := Except.error.inj h
      rw [unexpected_cause _ hu]
      refine .atToken endless_nil ((hA []).mpr hf) ?_
      intro later hlater
      exact hu ((hA (u :: later)).mp hlater)

end

/-! ### One token

From a state of the parser an error is at the earliest possible token if it is so from the
states behind the next token.  There is one step for each kind of token, and where the
parser looks ahead it is a step of two.
-/

/-- From this state the tokens are rejected at the earliest possible token, if they are. -/
def Earliest (final : Token) (stack : List Group) (ts : List Token) : Prop :=
  ∀ e, (parseFrom final stack false ts).outcome = .error e →
    RejectedAt (fun us => (parseFrom final stack false us).Accepts) final ts e.token e.cause

section Steps

variable {final : Token} {stack below : List Group} {g : Group} {rest : List Token}

theorem earliest_nil (hf : final.kind = .endOfInput) (stack : List Group) :
    Earliest final stack [] := by
  intro e h
  cases stack with
  | nil =>
      have hok : (parseFrom final [] false []).outcome = .ok .nil :=
        Parse.finish_eq_ok.mpr ⟨hf, rfl⟩
      rw [hok] at h
      cases h
  | cons g below =>
      have hmore : List.replicate (below.length + 1) closer ≠ [] := by simp
      rw [parseFrom_nil_open] at h
      obtain rfl := Except.error.inj h
      exact .atEnd hmore (endless_closing _) (accepts_closing hf below g)

theorem earliest_atom (hf : final.kind = .endOfInput) {t : Token} (ht : t.kind.isAtom = true)
    (hrest : Endless rest) (ih : ∀ g below, Earliest final (g :: below) rest) :
    Earliest final stack (t :: rest) := by
  intro e h
  cases stack with
  | nil =>
      rw [parseFrom_atom_top ht] at h
      refine rejectedAt_finish [t] hf hrest ?_ h
      intro us
      exact (accepts_of_outcome_eq (parseFrom_atom_top ht)).trans accepts_finish
  | cons g below =>
      rw [parseFrom_atom ht] at h
      refine (ih _ below e h).behind [t] ?_
      intro us
      exact (accepts_of_outcome_eq (parseFrom_atom ht)).symm

theorem earliest_quote {q l : Token} (hq : q.kind = .quote) (hl : l.kind = .leftParen)
    (ih : ∀ g, Earliest final (g :: stack) rest) : Earliest final stack (q :: l :: rest) := by
  intro e h
  rw [parseFrom_quote hq hl] at h
  refine (ih _ e h).behind [q, l] ?_
  intro us
  show _ ↔ (parseFrom final stack false (q :: l :: us)).Accepts
  rw [parseFrom_quote hq hl]

theorem earliest_quote_ne (hf : final.kind = .endOfInput) {q : Token} (hq : q.kind = .quote)
    (hrest : Endless rest) (hnext : (rest.headD final).kind ≠ .leftParen) :
    Earliest final stack (q :: rest) := by
  intro e h
  rw [parseFrom_quote_ne hq hnext] at h
  obtain rfl := Except.error.inj h
  refine rejectedAt_next [q] hf hrest (List.cons_ne_nil opener _) ?_
    (accepts_quote hf hq stack) ?_
  · exact endless_cons.mpr ⟨by decide, endless_closing _⟩
  · intro u later hu
    show ¬ (parseFrom final stack false (q :: u :: later)).Accepts
    rw [← hu] at hnext
    rw [parseFrom_quote_ne hq (by simpa using hnext)]
    exact not_accepts_reject _

theorem earliest_group {l : Token} (hl : l.kind = .leftParen)
    (ih : ∀ g', Earliest final (g' :: g :: below) rest) :
    Earliest final (g :: below) (l :: rest) := by
  intro e h
  rw [parseFrom_group hl] at h
  refine (ih _ e h).behind [l] ?_
  intro us
  show _ ↔ (parseFrom final (g :: below) false (l :: us)).Accepts
  rw [parseFrom_group hl]
  -- what follows may change the form of the group, but not what is accepted in it
  exact accepts_congr us false rfl

theorem earliest_call {l s : Token} (hl : l.kind = .leftParen) (hs : s.kind = .symbol)
    (ih : ∀ g, Earliest final [g] rest) : Earliest final [] (l :: s :: rest) := by
  have hatom : s.kind.isAtom = true := by rw [hs]; rfl
  have hcall : ∀ us, (parseFrom final [] false (l :: s :: us)).outcome
      = (parseFrom final [Group.push ⟨l.place, .call, []⟩ s.value] false us).outcome := by
    intro us
    rw [parseFrom_call hl (by simpa using hs), parseFrom_atom hatom]
  intro e h
  rw [hcall] at h
  refine (ih _ e h).behind [l, s] ?_
  intro us
  exact (accepts_of_outcome_eq (hcall us)).symm

theorem earliest_bare (hf : final.kind = .endOfInput) {l : Token} (hl : l.kind = .leftParen)
    (hrest : Endless rest) (hnext : (rest.headD final).kind ≠ .symbol) :
    Earliest final [] (l :: rest) := by
  intro e h
  rw [parseFrom_bare hl hnext] at h
  obtain rfl := Except.error.inj h
  refine rejectedAt_next [l] hf hrest (List.cons_ne_nil someSymbol [closer]) ?_
    (accepts_call hf hl) ?_
  · simp [endless_cons, endless_nil, someSymbol, closer]
  · intro u later hu
    show ¬ (parseFrom final [] false (l :: u :: later)).Accepts
    rw [← hu] at hnext
    rw [parseFrom_bare hl (by simpa using hnext)]
    exact not_accepts_reject _

theorem earliest_close (hf : final.kind = .endOfInput) {r : Token} (hr : r.kind = .rightParen)
    (hrest : Endless rest) (ih : ∀ g below, Earliest final (g :: below) rest) :
    Earliest final stack (r :: rest) := by
  intro e h
  rcases stack with _ | ⟨g, _ | ⟨outer, below⟩⟩
  · rw [parseFrom_close_nothing hr] at h
    obtain rfl := Except.error.inj h
    have hempty : (parseFrom final [] false []).Accepts :=
      ⟨.nil, Parse.finish_eq_ok.mpr ⟨hf, rfl⟩⟩
    rw [unexpected_cause _ (by rw [hr]; decide)]
    show RejectedAt _ final ([] ++ r :: rest) r _
    refine .atToken endless_nil hempty ?_
    intro later
    rw [List.nil_append, parseFrom_close_nothing hr]
    exact not_accepts_reject _
  · rw [parseFrom_close_last hr] at h
    refine rejectedAt_finish [r] hf hrest ?_ h
    intro us
    exact (accepts_of_outcome_eq (parseFrom_close_last hr)).trans accepts_finish
  · rw [parseFrom_close hr] at h
    refine (ih _ below e h).behind [r] ?_
    intro us
    exact (accepts_of_outcome_eq (parseFrom_close hr)).symm

end Steps

/-! ### All tokens -/

/-- **From every state an error is at the earliest possible token.**  The induction is on the
number of tokens, since a quote is shifted together with the parenthesis behind it. -/
theorem parseFrom_earliest {final : Token} (hf : final.kind = .endOfInput) :
    ∀ (n : Nat) (ts : List Token) (stack : List Group), ts.length ≤ n → Endless ts →
      (∀ t ∈ ts, t.kind ≠ .invalid) → Earliest final stack ts := by
  intro n
  induction n with
  | zero =>
      intro ts stack hn _ _
      obtain rfl : ts = [] := List.eq_nil_of_length_eq_zero (by omega)
      exact earliest_nil hf stack
  | succ n ih =>
      intro ts stack hn hends hvalid
      cases ts with
      | nil => exact earliest_nil hf stack
      | cons t rest =>
          obtain ⟨ht, hrest⟩ := endless_cons.mp hends
          have hvalid' : ∀ u ∈ rest, u.kind ≠ .invalid := fun u hu => hvalid u (by simp [hu])
          have hlen : rest.length ≤ n := by simpa using hn
          have hnext : ∀ stack, Earliest final stack rest := fun stack =>
            ih rest stack hlen hrest hvalid'
          have hsecond : ∀ {u us}, rest = u :: us → ∀ stack, Earliest final stack us := by
            rintro u us rfl stack
            simp only [List.length_cons] at hlen
            exact ih us stack (by omega) (endless_cons.mp hrest).2
              fun w hw => hvalid' w (by simp [hw])
          cases hk : t.kind with
          | quote =>
              by_cases hl : (rest.headD final).kind = .leftParen
              · obtain ⟨l, us, rfl, hl⟩ := eq_cons_of_next hf (by decide) hl
                exact earliest_quote hk hl fun g => hsecond rfl _
              · exact earliest_quote_ne hf hk hrest hl
          | leftParen =>
              cases stack with
              | cons g below => exact earliest_group hk fun g' => hnext _
              | nil =>
                  by_cases hs : (rest.headD final).kind = .symbol
                  · obtain ⟨s, us, rfl, hs⟩ := eq_cons_of_next hf (by decide) hs
                    exact earliest_call hk hs fun g => hsecond rfl _
                  · exact earliest_bare hf hk hrest hs
          | rightParen => exact earliest_close hf hk hrest fun g below => hnext _
          | endOfInput => exact absurd hk ht
          | invalid => exact absurd hk (hvalid t (by simp))
          | _ => exact earliest_atom hf (by rw [hk]; rfl) hrest fun g below => hnext _

/-! ### Beginnings of expressions -/

/-- Tokens without an end that are parsed as one expression. -/
def Accepted (ts : List Token) : Prop := Endless ts ∧ (parse ts).Accepts

/-- Tokens that some expression begins with. -/
def Viable (ts : List Token) : Prop := ∃ more, Accepted (ts ++ more)

/-- The point where the tokens run out may be any end. -/
theorem accepted_iff {final : Token} (hf : final.kind = .endOfInput) {ts : List Token} :
    Accepted ts ↔ Endless ts ∧ (parseFrom final [] false ts).Accepts := by
  have hany : ∀ {final' : Token}, final'.kind = .endOfInput → Endless ts → ∀ v,
      (parseFrom final' [] false ts).outcome = .ok v ↔ DerivesExp ts v :=
    fun hf' hts v => ⟨derivesExp_of_parseFrom hf' hts, parseFrom_of_derivesExp hf'⟩
  refine and_congr_right fun hts => exists_congr fun v => ?_
  exact (hany (streamEnd_kind ts) hts v).trans (hany hf hts v).symm

/-- **A proper beginning of an expression is rejected because it ends too early**, and for no
other reason; it is not accepted either, since nothing may follow an expression. -/
theorem parse_unfinished {ts us : List Token} {final : Token} (hf : final.kind = .endOfInput)
    (hts : ts ≠ []) (hus : us ≠ []) (hvalid : ∀ t ∈ ts, t.kind ≠ .invalid)
    (h : Accepted (ts ++ us)) :
    ∃ e, (parse (ts ++ [final])).outcome = .error e ∧ e.cause = .endOfInput := by
  obtain ⟨hends, hall⟩ := (accepted_iff hf).mp h
  obtain ⟨hends, hends'⟩ := endless_append.mp hends
  rw [parse, parseFrom_append_end (streamEnd_kind _) hf]
  cases hout : (parseFrom final [] false ts).outcome with
  | ok v =>
      have hexp := derivesExp_of_parseFrom hf hends hout
      have hend := accepts_finish.mp
        ((accepts_of_outcome_eq (parseFrom_expression hexp hts)).mp hall)
      exact absurd (eq_nil_of_next_end hends' hend) hus
  | error e =>
      refine ⟨e, rfl, ?_⟩
      have hrejected := parseFrom_earliest hf _ ts [] (Nat.le_refl _) hends hvalid e hout
      generalize e.token = t, e.cause = cause at hrejected
      cases hrejected with
      | atEnd => rfl
      | atToken _ _ hdead =>
          rw [List.append_assoc, List.cons_append] at hall
          exact absurd hall (hdead _)

/--
**A syntax error names the earliest token at which the text can be rejected.**  That token
stands at one index.  The tokens before it are the beginning of an expression; together with
it they are not, unless it is the end of the text.  The cause is an early end exactly if the
token is the end, and so it is exactly if the tokens of the text are a proper beginning of an
expression.
-/
theorem parse_rejects_earliest {source text : Bytes} {tokens : List Token} {e : SyntaxError}
    (htokens : Token.tokenize source text = .ok tokens)
    (he : (parse tokens).outcome = .error e) :
    ∃ k, (∀ j : Nat, tokens[j]? = some e.token ↔ j = k) ∧ Viable (tokens.take k) ∧
      (e.token.kind ≠ .endOfInput →
        ¬ Viable (tokens.take (k + 1)) ∧ e.cause = .unexpectedToken) ∧
      (e.cause = .endOfInput ↔ e.token.kind = .endOfInput) ∧
      (e.token.kind = .endOfInput ↔ ∃ more, more ≠ [] ∧ Accepted (tokens.dropLast ++ more)) := by
  have hvalid := Token.tokenize_ne_invalid htokens
  obtain ⟨ts, final, rfl, hf, hends⟩ := Token.tokenize_ends htokens
  rw [parse, parseFrom_append_end (streamEnd_kind _) hf] at he
  have hrejected := parseFrom_earliest hf _ ts [] (Nat.le_refl _) hends
    (fun t ht => hvalid t (by simp [ht])) e he
  have hindex : ∀ {k : Nat}, (ts ++ [final])[k]? = some e.token →
      ∀ j : Nat, (ts ++ [final])[j]? = some e.token ↔ j = k := by
    intro k hk j
    refine ⟨fun hj => Token.tokenize_index htokens hj hk, ?_⟩
    rintro rfl
    exact hk
  rw [List.dropLast_concat]
  generalize e.token = t, e.cause = cause at hrejected hindex
  cases hrejected with
  | @atEnd _ more hmore hendless hgood =>
      have hlonger : Accepted (ts ++ more) :=
        (accepted_iff hf).mpr ⟨endless_append.mpr ⟨hends, hendless⟩, hgood⟩
      refine ⟨ts.length, hindex (by simp), ?_, absurd hf, iff_of_true rfl hf,
        iff_of_true hf ⟨more, hmore, hlonger⟩⟩
      rw [List.take_left]
      exact ⟨more, hlonger⟩
  | @atToken before after more t hendless hgood hdead =>
      have ht : t.kind ≠ .endOfInput := hends t (by simp)
      have hno : ∀ later, ¬ Accepted (before ++ t :: later) := fun later hlater =>
        hdead later ((accepted_iff hf).mp hlater).2
      refine ⟨before.length, hindex (by simp), ?_, fun _ => ⟨?_, rfl⟩,
        iff_of_false (by decide) ht, iff_of_false ht ?_⟩
      · rw [List.append_assoc, List.take_left]
        exact ⟨more, (accepted_iff hf).mpr
          ⟨endless_append.mpr ⟨(endless_append.mp hends).1, hendless⟩, hgood⟩⟩
      · have htake : (before ++ t :: after ++ [final]).take (before.length + 1)
            = before ++ [t] := by
          rw [List.append_assoc, List.take_length_add_append]
          rfl
        rw [htake]
        rintro ⟨later, hlater⟩
        rw [List.append_assoc] at hlater
        exact hno later hlater
      · rintro ⟨later, -, hlater⟩
        rw [List.append_assoc, List.cons_append] at hlater
        exact hno _ hlater

/-- The tokens of `(f 'x)`. -/
def quotedSymbol : List Token :=
  [⟨.leftParen, utf8 "(", .nil, ⟨[], 1, 1⟩⟩, ⟨.symbol, utf8 "f", .symbol (utf8 "f"), ⟨[], 1, 2⟩⟩,
    ⟨.quote, utf8 "'", .nil, ⟨[], 1, 4⟩⟩, ⟨.symbol, utf8 "x", .symbol (utf8 "x"), ⟨[], 1, 5⟩⟩,
    ⟨.rightParen, utf8 ")", .nil, ⟨[], 1, 6⟩⟩, .endOfInput ⟨[], 1, 7⟩]

/-- It is rejected at the symbol behind the quote: a list could have stood there. -/
theorem parse_rejects_quotedSymbol :
    Token.tokenize [] (utf8 "(f 'x)") = .ok quotedSymbol ∧
      (∃ e, (parse quotedSymbol).outcome = .error e ∧ e.cause = .unexpectedToken) ∧
      Viable (quotedSymbol.take 3) ∧ ¬ Viable (quotedSymbol.take 4) := by
  have htokens : Token.tokenize [] (utf8 "(f 'x)") = .ok quotedSymbol := by cbv
  obtain ⟨k, hindex, hbefore, hupto, -, -⟩ := parse_rejects_earliest htokens rfl
  obtain rfl : 3 = k := (hindex 3).mp rfl
  obtain ⟨hdead, hcause⟩ := hupto (by decide)
  exact ⟨htokens, ⟨_, rfl, hcause⟩, hbefore, hdead⟩

end TinyLisp.Grammar
