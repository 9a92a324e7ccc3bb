/-
Expressions in a row.

A token stream is cut into groups by counting parentheses, and every group is parsed by
itself, with an end that borrows the place of the token behind it.  `outcomes` is what
that comes to: for each top-level group an expression or an error.

Where one stream follows another, nothing of the first may leak into the second.  That
is so when all groups of the first are expressions.  An expression closes what it opens
and does not end with a quote (`DerivesExp.closes`), so a group that is still held when
the first stream ends is no expression; hence none is held.  The last group of the first
stream now borrows its end from the second, but an end never decides whether the tokens
before it are an expression, nor which.

A stream that is moved down as a whole is cut in the same places, and its groups are
parsed alike.
-/
import Mathlib.Data.List.Forall2
import TinyLisp.Proofs.Grammar.Places
import TinyLisp.Token.Lexer

namespace TinyLisp

/-! ### The count of open parentheses -/

namespace Token

variable {t : Token}

theorem nesting_leftParen (h : t.kind = .leftParen) (depth : Nat) :
    nesting depth t = depth + 1 := by
  rw [nesting, h]

theorem nesting_rightParen (h : t.kind = .rightParen) (depth : Nat) :
    nesting depth t = depth - 1 := by
  rw [nesting, h]

theorem nesting_quote (h : t.kind = .quote) (depth : Nat) : nesting depth t = depth := by
  rw [nesting, h]

theorem nesting_atom (h : t.kind.isAtom = true) (depth : Nat) : nesting depth t = depth := by
  unfold nesting
  cases hk : t.kind with
  | leftParen => rw [hk] at h; cases h
  | rightParen => rw [hk] at h; cases h
  | _ => rfl

end Token

namespace Grammar

open Token (nesting nesting_leftParen nesting_rightParen nesting_quote nesting_atom)

theorem DerivesItems.foldl_nesting {ts : List Token} {vs : List Value} (h : DerivesItems ts vs) :
    ∀ depth, ts.foldl nesting depth = depth := by
  refine DerivesItems.induction (P := fun ts _ => ∀ depth, ts.foldl nesting depth = depth)
    ⟨?_, ?_, ?_, ?_⟩ h
  · intro depth
    rfl
  · intro t us vs ht ih depth
    rw [List.foldl_cons, nesting_atom ht, ih]
  · intro l r ts us vs ws hl hr ihts ihus depth
    rw [List.foldl_cons, nesting_leftParen hl, List.foldl_append, ihts, List.foldl_cons,
      nesting_rightParen hr, Nat.add_sub_cancel, ihus]
  · intro q l r ts us vs ws hq hl hr ihts ihus depth
    rw [List.foldl_cons, nesting_quote hq, List.foldl_cons, nesting_leftParen hl,
      List.foldl_append, ihts, List.foldl_cons, nesting_rightParen hr, Nat.add_sub_cancel, ihus]

/-- An expression does not end with a quote, and behind it no parenthesis is open. -/
theorem DerivesExp.closes {ts : List Token} {t : Token} {v : Value}
    (h : DerivesExp (ts ++ [t]) v) :
    t.kind ≠ .quote ∧ (ts ++ [t]).foldl nesting 0 = 0 := by
  have hlast : ∀ (us : List Token) {r : Token}, ts ++ [t] = us ++ [r] → r.kind = .rightParen →
      t.kind ≠ .quote := by
    intro us r hus hr
    obtain rfl : t = r := by simpa using (List.append_inj' hus rfl).2
    rw [hr]
    decide
  generalize hus : ts ++ [t] = us at h
  cases h with
  | empty => simp at hus
  | atom h =>
      obtain ⟨ht⟩ := h
      have hone : ts ++ [t] = [] ++ [_] := hus
      obtain rfl : t = _ := by simpa using (List.append_inj' hone rfl).2
      refine ⟨?_, nesting_atom ht 0⟩
      intro hq
      rw [hq] at ht
      cases ht
  | quoted h =>
      obtain ⟨hq, hl, items, hr⟩ := h
      refine ⟨hlast (_ :: _ :: _) hus hr, ?_⟩
      rw [List.cons_append, List.foldl_cons, nesting_quote hq, List.foldl_cons,
        nesting_leftParen hl, List.foldl_append, items.foldl_nesting]
      exact nesting_rightParen hr 1
  | call h =>
      obtain ⟨hl, hs, items, hr⟩ := h
      refine ⟨hlast _ hus hr, ?_⟩
      rw [List.cons_append, List.cons_append, List.foldl_cons, nesting_leftParen hl,
        List.foldl_cons, nesting_atom (by rw [hs]; rfl), List.foldl_append, items.foldl_nesting]
      exact nesting_rightParen hr 1

/-! ### Borrowed ends -/

section

variable {ts : List Token} {e e' : Token} {v : Value}

theorem derivesExp_of_parse (hts : ∀ t ∈ ts, t.kind ≠ .endOfInput) (he : e.kind = .endOfInput)
    (h : (parse (ts ++ [e])).outcome = .ok v) : DerivesExp ts v := by
  rw [parse, parseFrom_append_end (streamEnd_kind _) he] at h
  exact derivesExp_of_parseFrom he hts h

theorem parse_of_derivesExp (he : e.kind = .endOfInput) (h : DerivesExp ts v) :
    (parse (ts ++ [e])).outcome = .ok v := by
  rw [parse, parseFrom_append_end (streamEnd_kind _) he]
  exact parseFrom_of_derivesExp he h

end

/-! ### Groups in front of others -/

/-- What the top-level groups of some tokens are, expressions or errors. -/
def outcomesOf (groups : List (List Token)) : List (Except SyntaxError Value) :=
  groups.map fun group => (parse group).outcome

/-- What the top-level groups of a token stream are. -/
def outcomes (tokens : List Token) : List (Except SyntaxError Value) :=
  outcomesOf (Token.groups tokens)

/-- Tokens of a group that goes on, the last one first, with `depth` parentheses open. -/
structure Pending (depth : Nat) (held : List Token) : Prop where
  count : depth = held.reverse.foldl nesting 0
  plain : ∀ t ∈ held, t.kind ≠ .endOfInput
  goesOn : ∀ t ∈ held.head?, t.kind = .quote ∨ depth ≠ 0

theorem pending_nil : Pending 0 [] := ⟨rfl, by simp, by simp⟩

theorem Pending.push {depth : Nat} {held : List Token} {t : Token} (h : Pending depth held)
    (ht : t.kind ≠ .endOfInput) (hopen : t.kind = .quote ∨ nesting depth t ≠ 0) :
    Pending (nesting depth t) (t :: held) where
  count := by rw [List.reverse_cons, List.foldl_append, ← h.count]; rfl
  plain := by
    intro u hu
    rcases List.mem_cons.mp hu with rfl | hu
    · exact ht
    · exact h.plain u hu
  goesOn := by
    intro u hu
    obtain rfl : t = u := by simpa using hu
    exact hopen

/-- A group that goes on is no expression yet. -/
theorem Pending.eq_nil {depth : Nat} {held : List Token} {v : Value} (h : Pending depth held)
    (hexp : DerivesExp held.reverse v) : held = [] := by
  cases held with
  | nil => rfl
  | cons t older =>
      rw [List.reverse_cons] at hexp
      obtain ⟨hquote, hcount⟩ := hexp.closes
      have hdepth : depth = 0 := by
        rw [h.count, List.reverse_cons]
        exact hcount
      rcases h.goesOn t rfl with hq | hd
      · exact absurd hq hquote
      · exact absurd hdepth hd

/-- **Tokens whose groups are all expressions leave nothing behind for those that follow.**  The
induction is on the tokens in front, with the group that is held. -/
theorem outcomesOf_groupsFrom_append {e u : Token} (us : List Token) (he : e.kind = .endOfInput)
    (ts : List Token) : ∀ (depth : Nat) (held : List Token), Pending depth held →
      (∀ t ∈ ts, t.kind ≠ .endOfInput) →
      (∀ o ∈ outcomesOf (Token.groupsFrom depth held (ts ++ [e])), ∃ v, o = .ok v) →
      outcomesOf (Token.groupsFrom depth held (ts ++ u :: us))
        = outcomesOf (Token.groupsFrom depth held (ts ++ [e])) ++ outcomes (u :: us) := by
  induction ts with
  | nil =>
      intro depth held hheld _ hok
      have hnil : held = [] := by
        by_cases hempty : held = []
        · exact hempty
        · have hgroup : Token.groupsFrom depth held ([] ++ [e])
              = [held.reverse ++ [Token.groupEnd (some e)]] := by
            simp [Token.groupsFrom, he, hempty]
          rw [hgroup] at hok
          obtain ⟨v, hv⟩ := hok _ List.mem_cons_self
          have hplain : ∀ t ∈ held.reverse, t.kind ≠ .endOfInput := fun t ht =>
            hheld.plain t (by simpa using ht)
          exact hheld.eq_nil (derivesExp_of_parse hplain rfl hv)
      subst hnil
      obtain rfl : depth = 0 := hheld.count
      have hnone : Token.groupsFrom 0 [] ([] ++ [e]) = [] := by simp [Token.groupsFrom, he]
      rw [hnone]
      rfl
  | cons t rest ih =>
      intro depth held hheld hts hok
      have ht : t.kind ≠ .endOfInput := hts t (by simp)
      have hrest : ∀ u ∈ rest, u.kind ≠ .endOfInput := fun u hu => hts u (by simp [hu])
      rw [List.cons_append] at hok
      rw [List.cons_append, List.cons_append]
      unfold Token.groupsFrom at hok ⊢
      rw [if_neg ht] at hok
      rw [if_neg ht, if_neg ht]
      by_cases hopen : (t.kind = .quote || nesting depth t ≠ 0) = true
      · rw [if_pos hopen] at hok
        rw [if_pos hopen, if_pos hopen]
        exact ih _ _ (hheld.push ht (by simpa using hopen)) hrest hok
      · rw [if_neg hopen] at hok
        rw [if_neg hopen, if_neg hopen]
        -- the group is complete; only the place of its end changes
        have hgroup : ∀ e' : Token, (e' :: t :: held).reverse = (t :: held).reverse ++ [e'] := by
          intro e'
          exact List.reverse_cons
        have hplain : ∀ u ∈ (t :: held).reverse, u.kind ≠ .endOfInput := by
          intro u hu
          rcases List.mem_cons.mp (List.mem_reverse.mp hu) with rfl | hu
          · exact ht
          · exact hheld.plain u hu
        obtain ⟨v, hv⟩ := hok _ List.mem_cons_self
        rw [hgroup] at hv
        have hexp := derivesExp_of_parse hplain rfl hv
        have hcons : ∀ (e' : Token) (more : List (List Token)), e'.kind = .endOfInput →
            outcomesOf ((e' :: t :: held).reverse :: more) = .ok v :: outcomesOf more := by
          intro e' more he'
          rw [hgroup]
          exact congrArg (· :: outcomesOf more) (parse_of_derivesExp he' hexp)
        rw [hcons _ _ rfl, hcons _ _ rfl, List.cons_append]
        refine congrArg _ (ih 0 [] pending_nil hrest ?_)
        intro o ho
        exact hok o (List.mem_cons_of_mem _ ho)

theorem outcomes_append {ts us : List Token} {e u : Token} (he : e.kind = .endOfInput)
    (hts : ∀ t ∈ ts, t.kind ≠ .endOfInput) (hok : ∀ o ∈ outcomes (ts ++ [e]), ∃ v, o = .ok v) :
    outcomes (ts ++ u :: us) = outcomes (ts ++ [e]) ++ outcomes (u :: us) :=
  outcomesOf_groupsFrom_append us he ts 0 [] pending_nil hts hok

/-! ### Groups further down -/

section

variable (lines : Nat)

/-- In a stream that has an end, tokens further down make the groups further down. -/
theorem groupsFrom_below (tokens : List Token) (hend : ∃ t ∈ tokens, t.kind = .endOfInput) :
    ∀ (depth : Nat) (held : List Token),
      Token.groupsFrom depth (held.map (Token.below lines)) (tokens.map (Token.below lines))
        = (Token.groupsFrom depth held tokens).map (List.map (Token.below lines)) := by
  induction tokens with
  | nil => simp at hend
  | cons t rest ih =>
      intro depth held
      have hkind : (t.below lines).kind = t.kind := rfl
      have hcount : nesting depth (t.below lines) = nesting depth t := rfl
      have hempty : (held.map (Token.below lines)).isEmpty = held.isEmpty := by simp
      rw [List.map_cons]
      unfold Token.groupsFrom
      simp only [hkind, hcount, hempty]
      by_cases ht : t.kind = .endOfInput
      · simp only [if_pos ht]
        by_cases hheld : held.isEmpty = true
        · simp only [if_pos hheld, List.map_nil]
        · simp only [if_neg hheld, List.map_cons, List.map_nil, List.map_reverse]
          rfl
      · simp only [if_neg ht]
        have hrest : ∃ u ∈ rest, u.kind = .endOfInput := by
          obtain ⟨u, hu, hk⟩ := hend
          rcases List.mem_cons.mp hu with rfl | hu
          · exact absurd hk ht
          · exact ⟨u, hu, hk⟩
        by_cases hopen : (t.kind = .quote || nesting depth t ≠ 0) = true
        · simp only [if_pos hopen]
          exact ih hrest (nesting depth t) (t :: held)
        · simp only [if_neg hopen, List.map_cons, List.map_reverse]
          obtain ⟨next, later, rfl⟩ : ∃ next later, rest = next :: later := by
            cases rest with
            | nil => simp at hrest
            | cons next later => exact ⟨next, later, rfl⟩
          exact congrArg _ (ih hrest 0 [])

theorem groupsFrom_ne_nil (tokens : List Token) :
    ∀ (depth : Nat) (held : List Token), ∀ group ∈ Token.groupsFrom depth held tokens,
      group ≠ [] := by
  induction tokens with
  | nil =>
      intro depth held group hgroup
      unfold Token.groupsFrom at hgroup
      split at hgroup
      · cases hgroup
      · obtain rfl := List.mem_singleton.mp hgroup
        simp
  | cons t rest ih =>
      intro depth held group hgroup
      unfold Token.groupsFrom at hgroup
      split at hgroup
      · split at hgroup
        · cases hgroup
        · obtain rfl := List.mem_singleton.mp hgroup
          simp
      · split at hgroup
        · exact ih _ _ group hgroup
        · rcases List.mem_cons.mp hgroup with rfl | hgroup
          · simp
          · exact ih _ _ group hgroup

/-- **A stream further down has the same expressions and the same errors, further down.** -/
theorem outcomes_below (tokens : List Token) (hend : ∃ t ∈ tokens, t.kind = .endOfInput) :
    List.Forall₂ (OutcomeBelow lines) (outcomes tokens)
      (outcomes (tokens.map (Token.below lines))) := by
  have hgroups : Token.groups (tokens.map (Token.below lines))
      = (Token.groups tokens).map (List.map (Token.below lines)) :=
    groupsFrom_below lines tokens hend 0 []
  unfold outcomes outcomesOf
  rw [hgroups, List.map_map, List.forall₂_map_left_iff, List.forall₂_map_right_iff]
  rw [List.forall₂_same]
  intro group hgroup
  exact parse_below lines (groupsFrom_ne_nil tokens 0 [] group hgroup)

/-- The expressions of a text on a new line behind another one that holds expressions only:
those of the other one, and then its own, further down. -/
theorem outcomes_line {source s t : Bytes} {ts us : List Token}
    (hs : Token.tokenize source s = .ok ts) (ht : Token.tokenize source t = .ok us)
    (hok : ∀ o ∈ outcomes ts, ∃ v, o = .ok v) :
    ∃ both later, Token.tokenize source (s.line ++ t) = .ok both ∧
      outcomes both = outcomes ts ++ later ∧
      List.Forall₂ (OutcomeBelow (s.line.count Byte.lineFeed)) (outcomes us) later := by
  obtain ⟨ts, e, rfl, he, hts⟩ := Token.tokenize_ends hs
  obtain ⟨us', e', rfl, he', -⟩ := Token.tokenize_ends ht
  have hmoved := outcomes_below (s.line.count Byte.lineFeed) (us' ++ [e']) ⟨e', by simp, he'⟩
  refine ⟨_, _, Token.tokenize_line hs ht, ?_, hmoved⟩
  obtain ⟨u, more, hu⟩ : ∃ u more,
      (us' ++ [e']).map (Token.below (s.line.count Byte.lineFeed)) = u :: more :=
    List.exists_cons_of_ne_nil (by simp)
  rw [hu]
  exact outcomes_append he hts hok

end

end Grammar

end TinyLisp
