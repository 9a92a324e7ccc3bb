/-
An unfinished expression can always be finished.

A session waits for more exactly if the text so far is rejected for ending too early.  Unless
that text ends inside a literal, its tokens are then the beginning of an expression, so there
are tokens that finish it.  It remains to write these tokens on a line.

Two facts make that possible.  Whether tokens make up an expression depends on their kinds
alone (`DerivesExp.of_kinds`), so it does not matter which symbol or number is written.  And
every kind of token can be written, with a blank behind it that keeps it apart from the next
one (`exists_line`).  The line feed in front of the new line ends whatever the old one left
open, a word or a comment.
-/
import TinyLisp.Proofs.RoundTrip
import TinyLisp.Proofs.Session.Lines
import TinyLisp.Proofs.Token.Lexemes

namespace TinyLisp

/-! ### Kinds decide -/

namespace Grammar

/-- Tokens of the kinds of a group and what follows it are a group and what follows that. -/
theorem exists_group_of_kinds {l r : Token} {ts rest us : List Token}
    (h : us.map Token.kind = (l :: (ts ++ r :: rest)).map Token.kind) :
    ∃ l' inner r' rest', us = l' :: (inner ++ r' :: rest') ∧ l'.kind = l.kind ∧
      inner.map Token.kind = ts.map Token.kind ∧ r'.kind = r.kind ∧
      rest'.map Token.kind = rest.map Token.kind := by
  rw [List.map_cons, List.map_append, List.map_cons] at h
  obtain ⟨l', behind, rfl, hl, hbehind⟩ := List.map_eq_cons_iff.mp h
  obtain ⟨inner, close, rfl, hinner, hclose⟩ := List.map_eq_append_iff.mp hbehind
  obtain ⟨r', rest', rfl, hr, hrest⟩ := List.map_eq_cons_iff.mp hclose
  exact ⟨l', inner, r', rest', rfl, hl, hinner, hr, hrest⟩

/-- Tokens of the same kinds are items as well, with values of their own. -/
theorem DerivesItems.of_kinds {ts : List Token} {vs : List Value} (h : DerivesItems ts vs) :
    ∀ us : List Token, us.map Token.kind = ts.map Token.kind → ∃ ws, DerivesItems us ws := by
  refine DerivesItems.induction (P := fun ts _ => ∀ us : List Token,
    us.map Token.kind = ts.map Token.kind → ∃ ws, DerivesItems us ws) ⟨?_, ?_, ?_, ?_⟩ h
  · intro us hus
    have hnone : us = [] := by simpa using hus
    rw [hnone]
    exact ⟨[], .empty⟩
  · intro t ts _ ht ih us hus
    obtain ⟨u, rest, rfl, hu, hrest⟩ := List.map_eq_cons_iff.mp hus
    obtain ⟨ws, hws⟩ := ih rest hrest
    exact ⟨_, .more (.atom (.token (hu ▸ ht))) hws⟩
  · intro l r ts ts' _ _ hl hr ih ih' us hus
    obtain ⟨l', inner, r', rest, rfl, hl', hinner, hr', hrest⟩ := exists_group_of_kinds hus
    obtain ⟨vs, hvs⟩ := ih inner hinner
    obtain ⟨ws, hws⟩ := ih' rest hrest
    have hgroup := DerivesList.group (hl'.trans hl) hvs (hr'.trans hr)
    exact ⟨_, by simpa using DerivesItems.more (.list hgroup) hws⟩
  · intro q l r ts ts' _ _ hq hl hr ih ih' us hus
    obtain ⟨q', behind, rfl, hq', hbehind⟩ := List.map_eq_cons_iff.mp hus
    obtain ⟨l', inner, r', rest, rfl, hl', hinner, hr', hrest⟩ := exists_group_of_kinds hbehind
    obtain ⟨vs, hvs⟩ := ih inner hinner
    obtain ⟨ws, hws⟩ := ih' rest hrest
    have hgroup := DerivesList.group (hl'.trans hl) hvs (hr'.trans hr)
    have hquoted := DerivesQuoted.quote (hq'.trans hq) hgroup
    exact ⟨_, by simpa using DerivesItems.more (.quoted hquoted) hws⟩

/-- **Whether tokens are an expression depends on their kinds alone.** -/
theorem DerivesExp.of_kinds {ts us : List Token} {v : Value} (h : DerivesExp ts v)
    (hus : us.map Token.kind = ts.map Token.kind) : ∃ w, DerivesExp us w := by
  cases h with
  | empty =>
      have hnone : us = [] := by simpa using hus
      rw [hnone]
      exact ⟨.nil, .empty⟩
  | atom h =>
      obtain ⟨ht⟩ := h
      obtain ⟨u, rfl, hu⟩ := List.map_eq_singleton_iff.mp hus
      exact ⟨_, .atom (.token (hu ▸ ht))⟩
  | quoted h =>
      obtain ⟨hq, hl, items, hr⟩ := h
      obtain ⟨q', behind, rfl, hq', hbehind⟩ := List.map_eq_cons_iff.mp hus
      obtain ⟨l', inner, r', rest, rfl, hl', hinner, hr', hrest⟩ := exists_group_of_kinds hbehind
      obtain ⟨ws, hws⟩ := items.of_kinds inner hinner
      have hend : rest = [] := by simpa using hrest
      rw [hend]
      exact ⟨_, .quoted (.quote (hq'.trans hq) (.group (hl'.trans hl) hws (hr'.trans hr)))⟩
  | call h =>
      obtain ⟨hl, hs, items, hr⟩ := h
      obtain ⟨l', inner, r', rest, rfl, hl', hinner, hr', hrest⟩ := exists_group_of_kinds hus
      obtain ⟨s', inner, rfl, hs', hinner'⟩ := List.map_eq_cons_iff.mp hinner
      obtain ⟨ws, hws⟩ := items.of_kinds inner hinner'
      have hend : rest = [] := by simpa using hrest
      rw [hend]
      exact ⟨_, .call (.call (hl'.trans hl) (hs'.trans hs) hws (hr'.trans hr))⟩

/-- Nothing but tokens that can be written makes up items. -/
theorem DerivesItems.ne_invalid {ts : List Token} {vs : List Value} (h : DerivesItems ts vs) :
    ∀ t ∈ ts, t.kind ≠ .invalid := by
  refine DerivesItems.induction (P := fun ts _ => ∀ t ∈ ts, t.kind ≠ .invalid)
    ⟨?_, ?_, ?_, ?_⟩ h
  · intro t ht
    simp at ht
  · intro t us _ ht ih
    have hvalid : t.kind ≠ .invalid := by
      intro hk
      rw [hk] at ht
      simp [TokenKind.isAtom] at ht
    simpa [hvalid] using ih
  · intro l r ts us _ _ hl hr ih ih' t ht
    simp only [List.mem_cons, List.mem_append] at ht
    rcases ht with rfl | ht | rfl | ht
    · simp [hl]
    · exact ih t ht
    · simp [hr]
    · exact ih' t ht
  · intro q l r ts us _ _ hq hl hr ih ih' t ht
    simp only [List.mem_cons, List.mem_append] at ht
    rcases ht with rfl | rfl | ht | rfl | ht
    · simp [hq]
    · simp [hl]
    · exact ih t ht
    · simp [hr]
    · exact ih' t ht

/-- An expression is at most one item. -/
theorem DerivesExp.exists_items {ts : List Token} {v : Value} (h : DerivesExp ts v) :
    ∃ vs, DerivesItems ts vs := by
  have hone : ∀ {ts v}, DerivesItem ts v → ∃ vs, DerivesItems ts vs := by
    intro ts v item
    exact ⟨[v], by simpa using DerivesItems.more item .empty⟩
  cases h with
  | empty => exact ⟨[], .empty⟩
  | atom h => exact hone (.atom h)
  | quoted h => exact hone (.quoted h)
  | call h => exact hone (.call h)

end Grammar

/-! ### Every kind can be written -/

/-- Some token of each kind, as it is written.  The kinds that no text has stay empty. -/
def TokenKind.spelling : TokenKind → Bytes
  | .leftParen => utf8 "("
  | .rightParen => utf8 ")"
  | .quote => utf8 "'"
  | .symbol => utf8 "f"
  | .number => utf8 "0"
  | .text => utf8 "\"\""
  | .true => utf8 "true"
  | .false => utf8 "false"
  | .nil => utf8 "nil"
  | .invalid | .endOfInput => []

namespace Token

/-- What is written for a kind is one token of that kind, with a blank behind it. -/
theorem yields_spelling {kind : TokenKind} (hvalid : kind ≠ .invalid)
    (hend : kind ≠ .endOfInput) (rest : Bytes) :
    Yields (kind.spelling ++ [Byte.space]) rest fun ts => ts.map Token.kind = [kind] := by
  have hblank : ∀ {word : Bytes},
      Yields word ([Byte.space] ++ rest) (fun ts => ts.map Token.kind = [kind]) →
      Yields (word ++ [Byte.space]) rest fun ts => ts.map Token.kind = [kind] := by
    intro word h
    refine h.append (yields_space rest) ?_
    rintro ts _ hts rfl
    rwa [List.append_nil]
  have hsingle : ∀ {b : UInt8} {p : Piece} {v : Value},
      (∀ rest, Piece.next? b rest = some (p, rest)) → p.meaning? = some (kind, v) →
      Yields ([b] ++ [Byte.space]) rest fun ts => ts.map Token.kind = [kind] := by
    intro b p v hnext hmeaning
    refine hblank ((yields_single hnext hmeaning _).mono ?_)
    rintro _ ⟨t, rfl, hk⟩
    rw [List.map_singleton, hk]
  have hword : ∀ {word : Bytes} {v : Value}, Spells word kind v →
      Yields (word ++ [Byte.space]) rest fun ts => ts.map Token.kind = [kind] := by
    intro word v h
    refine hblank (h.yields (Piece.endsWord_cons (by decide) _) ?_)
    intro t hk _
    rw [List.map_singleton, hk]
  cases kind with
  | invalid => exact absurd rfl hvalid
  | endOfInput => exact absurd rfl hend
  | leftParen => exact hsingle (p := .leftParen) (fun _ => rfl) rfl
  | rightParen => exact hsingle (p := .rightParen) (fun _ => rfl) rfl
  | quote => exact hsingle (p := .quote) (fun _ => rfl) rfl
  | text =>
      exact hblank (yields_token (Piece.scan_literal .nil _) rfl fun t hk _ => by simp [hk])
  | symbol => exact hword ⟨by decide, undelimited_of_all (by decide), rfl⟩
  | number =>
      have hzero : TokenKind.number.spelling = Numeral.signed (Int64.toInt 0) := by cbv
      rw [hzero]
      exact hword (spells_int 0)
  | true => exact hword ⟨by decide, undelimited_of_all (by decide), rfl⟩
  | false => exact hword ⟨by decide, undelimited_of_all (by decide), rfl⟩
  | nil => exact hword ⟨by decide, undelimited_of_all (by decide), rfl⟩

/-- **Tokens of any kinds can be written on one line.** -/
theorem exists_line {kinds : List TokenKind}
    (h : ∀ kind ∈ kinds, kind ≠ .invalid ∧ kind ≠ .endOfInput) :
    ∃ line, Byte.lineFeed ∉ line ∧ Yields line [] fun ts => ts.map Token.kind = kinds := by
  induction kinds with
  | nil => exact ⟨[], by simp, rfl, fun place => ⟨[], place, rfl, rfl⟩⟩
  | cons kind kinds ih =>
      obtain ⟨line, hline, hrest⟩ := ih fun k hk => h k (by simp [hk])
      obtain ⟨hvalid, hend⟩ := h kind (by simp)
      refine ⟨kind.spelling ++ [Byte.space] ++ line, ?_, ?_⟩
      · have hspelling : Byte.lineFeed ∉ kind.spelling := by cases kind <;> decide
        have hblank : Byte.lineFeed ≠ Byte.space := by decide
        simp [hspelling, hblank, hline]
      · refine (yields_spelling hvalid hend _).append hrest ?_
        intro ts us hts hus
        rw [List.map_append, hts, hus, List.singleton_append]

end Token

/-! ### Finishing a text -/

/-- **What is rejected for ending too early can be finished on the next line**, unless it ends
inside a literal. -/
theorem Grammar.read_finishable {source text : Bytes} {e : SyntaxError}
    (hclosed : ∀ rest, ¬ LeftOpen rest text) (h : read source text = .error e)
    (hcause : e.cause = .endOfInput) :
    ∃ line expr, Byte.lineFeed ∉ line ∧ read source (text.line ++ line) = .ok expr := by
  obtain ⟨xs, hwritten⟩ := (Token.written_or_leftOpen text).resolve_right (by simpa using hclosed)
  obtain ⟨ts, final, htokens, hfinal, -⟩ := Token.tokenize_of_written hwritten source
  have hvalid := Token.tokenize_ne_invalid htokens
  have hends : Endless ts := by
    obtain ⟨ts', final', hsplit, -, hends⟩ := Token.tokenize_ends htokens
    obtain ⟨rfl, -⟩ := List.append_inj' hsplit rfl
    exact hends
  rw [read_eq_parse htokens, parse, parseFrom_append_end (streamEnd_kind _) hfinal] at h
  have hrejected := parseFrom_earliest hfinal _ ts [] (Nat.le_refl _) hends
    (fun t ht => hvalid t (by simp [ht])) e h
  rw [hcause] at hrejected
  generalize e.token = t at hrejected
  -- the tokens go on to an expression
  obtain ⟨more, v, hmore, hexp⟩ : ∃ more v, Endless more ∧ DerivesExp (ts ++ more) v := by
    cases hrejected with
    | @atEnd _ more _ hendless hgood =>
        obtain ⟨v, hv⟩ := hgood
        exact ⟨more, v, hendless,
          derivesExp_of_parseFrom hfinal (endless_append.mpr ⟨hends, hendless⟩) hv⟩
  obtain ⟨vs, hitems⟩ := hexp.exists_items
  have hkinds : ∀ kind ∈ more.map Token.kind, kind ≠ .invalid ∧ kind ≠ .endOfInput := by
    intro kind hkind
    obtain ⟨u, hu, rfl⟩ := List.mem_map.mp hkind
    exact ⟨hitems.ne_invalid u (by simp [hu]), hmore u hu⟩
  obtain ⟨line, hline, hyields⟩ := Token.exists_line hkinds
  obtain ⟨us, place, hus, hsecond⟩ := hyields.tokenize source
  -- on the new line they are of the same kinds
  have hboth := Token.tokenize_line htokens hsecond
  rw [List.map_append, List.map_singleton, ← List.append_assoc] at hboth
  have hsame : (ts ++ us.map (Token.below (text.line.count Byte.lineFeed))).map Token.kind
      = (ts ++ more).map Token.kind := by
    have hbelow : Token.kind ∘ Token.below (text.line.count Byte.lineFeed) = Token.kind := rfl
    rw [List.map_append, List.map_map, hbelow, hus, List.map_append]
  obtain ⟨expr, hexpr⟩ := hexp.of_kinds hsame
  exact ⟨line, expr, hline, (read_eq_parse hboth).trans (parse_of_derivesExp rfl hexpr)⟩

/-! ### Waiting -/

namespace Session

variable {stack : Machine → Bytes} {i : Interpreter} {s : Session} {l : Bytes}

/-- A session waits for more only where the text so far ends too early. -/
theorem unfinished_of_continued (h : (s.feed stack i l).2 = .continued) :
    ∃ e, Grammar.read source (s.pending ++ l) = .error e ∧ e.cause = .endOfInput := by
  unfold feed at h
  split at h
  · cases h
  · cases hread : Grammar.read source (s.pending ++ l) with
    | ok expr =>
        simp only [hread] at h
        cases h
    | error e =>
        by_cases hcause : e.cause = .endOfInput
        · exact ⟨e, rfl, hcause⟩
        · simp only [hread, if_neg hcause] at h
          cases h

/-- A session that waits for a new expression holds nothing of an old one. -/
theorem pending_of_fresh (h : (s.feed stack i l).2 = .fresh) :
    (s.feed stack i l).1.pending = [] := by
  unfold feed at h ⊢
  by_cases hempty : (s.pending.isEmpty && l.isEmpty) = true
  · rw [if_pos hempty]
    simpa using (Bool.and_eq_true_iff.mp hempty).1
  · rw [if_neg hempty] at h ⊢
    cases hread : Grammar.read source (s.pending ++ l) with
    | ok expr => simp only [hread]
    | error e =>
        by_cases hcause : e.cause = .endOfInput
        · simp only [hread, if_pos hcause] at h
          cases h
        · simp only [hread, if_neg hcause]

/-- A whole expression is carried out. -/
theorem feed_runs {expr : Value} (hpending : s.pending ≠ [])
    (h : Grammar.read source (s.pending ++ l) = .ok expr) :
    s.feed stack i l = (⟨run stack i expr s.machine, []⟩, .fresh) := by
  have hnot : ¬ (s.pending.isEmpty && l.isEmpty) = true := by simp [hpending]
  rw [feed, if_neg hnot]
  simp only [h]

/--
**The prompt never waits in vain.**  If a session waits for the rest of an expression, and the
text so far does not end inside a literal, there is a line that finishes it: the text is read as
an expression, which is carried out, and the session waits for a new one with nothing pending.
Whenever it waits for a new expression, nothing is pending.
-/
theorem feed_never_waits_in_vain (stack : Machine → Bytes) (i : Interpreter) (s : Session)
    (line : Bytes) :
    let fed := s.feed stack i line
    (fed.2 = .continued → (∀ rest, ¬ LeftOpen rest (s.pending ++ line)) →
      ∃ more expr, Byte.lineFeed ∉ more ∧
        Grammar.read source (fed.1.pending ++ more) = .ok expr ∧
        fed.1.feed stack i more = (⟨run stack i expr fed.1.machine, []⟩, .fresh)) ∧
      (fed.2 = .fresh → fed.1.pending = []) := by
  intro fed
  refine ⟨?_, pending_of_fresh⟩
  intro hwaits hclosed
  obtain ⟨e, he, hcause⟩ := unfinished_of_continued hwaits
  obtain ⟨more, expr, hline, hread⟩ := Grammar.read_finishable hclosed he hcause
  have hfed : fed = (⟨s.machine, (s.pending ++ line).line⟩, .continued) :=
    feed_unfinished he hcause
  rw [hfed]
  have hpending : (s.pending ++ line).line ≠ [] := by simp [Bytes.line]
  exact ⟨more, expr, hline, hread, feed_runs hpending hread⟩

/-- A lone parenthesis in front of a comment: only a symbol can go on from there, and it has to
stand on a new line. -/
def loneParenthesis : Bytes := utf8 "( ; f"

/-- Its tokens. -/
def tokensOfParenthesis : List Token :=
  [⟨.leftParen, utf8 "(", .nil, ⟨source, 1, 1⟩⟩, .endOfInput ⟨source, 1, 6⟩]

/-- A session over the builtin functions takes it. -/
def feedParenthesis : Session × Prompt :=
  feed (fun _ => []) (Interpreter.new Registry.builtins 0 false)
    ⟨.idle .reliable .reliable none, []⟩ loneParenthesis

theorem feed_never_waits_loneParenthesis :
    feedParenthesis.2 = .continued ∧ (∀ rest, ¬ LeftOpen rest loneParenthesis) ∧
      ∃ more expr, Byte.lineFeed ∉ more ∧
        Grammar.read source (feedParenthesis.1.pending ++ more) = .ok expr ∧
        (feedParenthesis.1.feed (fun _ => []) (Interpreter.new Registry.builtins 0 false) more).2 =
          .fresh := by
  have htokens : Token.tokenize source loneParenthesis = .ok tokensOfParenthesis := by cbv
  have hclosed : ∀ rest, ¬ LeftOpen rest loneParenthesis := by
    intro rest hopen
    obtain ⟨err, herr, -⟩ := Token.tokenize_of_leftOpen hopen source
    rw [herr] at htokens
    cases htokens
  have hread : Grammar.read source loneParenthesis = .error _ := Grammar.read_eq_parse htokens
  have hwaits : feedParenthesis.2 = .continued :=
    congrArg Prod.snd (feed_unfinished (s := ⟨_, []⟩) hread rfl)
  obtain ⟨more, expr, hline, hread, hfeed⟩ :=
    (feed_never_waits_in_vain (fun _ => []) (Interpreter.new Registry.builtins 0 false)
      ⟨.idle .reliable .reliable none, []⟩ loneParenthesis).1 hwaits hclosed
  exact ⟨hwaits, hclosed, more, expr, hline, hread, congrArg Prod.snd hfeed⟩

end Session

end TinyLisp
