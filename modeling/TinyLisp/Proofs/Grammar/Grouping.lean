/-
Cutting a stream into expressions.

The groups of a stream are found by a count of parentheses that knows nothing of the
grammar: it takes a parenthesis too many for the end of a group and never looks at what a
quote stands in front of.  Two things hold nevertheless.

Nothing is lost.  Whatever the tokens are, the groups without their ends are the tokens in
front of the first end of the stream, in order, and no group is empty.

And the count agrees with the parser.  While a parenthesis is open the tokens of items are
held, since items close what they open (`DerivesItems.held`), so an expression is held up
to its last token and is a group of its own (`groups_expression`).  A text is therefore
one expression exactly if it is one group and that group is an expression.
-/
import Mathlib
import TinyLisp.Proofs.Grammar.TopLevel

namespace TinyLisp

/-! ### One token of the count -/

namespace Token

variable {depth : Nat} {held rest : List Token} {t : Token}

theorem groupsFrom_hold (ht : t.kind ≠ .endOfInput)
    (hopen : t.kind = .quote ∨ nesting depth t ≠ 0) :
    groupsFrom depth held (t :: rest) = groupsFrom (nesting depth t) (t :: held) rest := by
  rw [groupsFrom, if_neg ht, if_pos (by simpa using hopen)]

theorem groupsFrom_close (ht : t.kind ≠ .endOfInput) (hquote : t.kind ≠ .quote)
    (hclosed : nesting depth t = 0) :
    groupsFrom depth held (t :: rest)
      = ((t :: held).reverse ++ [groupEnd rest.head?]) :: groupsFrom 0 [] rest := by
  rw [groupsFrom, if_neg ht, if_neg (by simp [hquote, hclosed]), List.reverse_cons]

/-- What is held where a stream ends is its last group. -/
def leftover (held : List Token) (next : Option Token) : List (List Token) :=
  if held.isEmpty then [] else [held.reverse ++ [groupEnd next]]

theorem groupsFrom_end (ht : t.kind = .endOfInput) :
    groupsFrom depth held (t :: rest) = leftover held (some t) := by
  rw [groupsFrom, if_pos ht, List.reverse_cons, leftover]

theorem groupsFrom_nil : groupsFrom depth held [] = leftover held none := by
  rw [groupsFrom, List.reverse_cons, leftover]

/-! ### Nothing is lost -/

/-- A run of tokens with one end behind it. -/
def EndedRun (group : List Token) : Prop :=
  ∃ run e, group = run ++ [e] ∧ run ≠ [] ∧ (∀ t ∈ run, t.kind ≠ .endOfInput) ∧
    e.kind = .endOfInput

/-- The groups are runs with ends, and without the ends they are these tokens in a row. -/
structure Grouped (tokens : List Token) (groups : List (List Token)) : Prop where
  /-- Every group is a run of tokens with one end behind it. -/
  ended : ∀ group ∈ groups, EndedRun group
  /-- No token is missing, and none comes twice or out of order. -/
  lossless : groups.flatMap List.dropLast = tokens

theorem grouped_nil : Grouped [] [] := ⟨by simp, rfl⟩

theorem Grouped.cons {run tokens : List Token} {groups : List (List Token)}
    (h : Grouped tokens groups) (hne : run ≠ []) (hrun : ∀ t ∈ run, t.kind ≠ .endOfInput)
    (next : Option Token) : Grouped (run ++ tokens) ((run ++ [groupEnd next]) :: groups) where
  ended := by
    intro group hgroup
    rcases List.mem_cons.mp hgroup with rfl | hgroup
    · exact ⟨run, groupEnd next, rfl, hne, hrun, rfl⟩
    · exact h.ended group hgroup
  lossless := by rw [List.flatMap_cons, List.dropLast_concat, h.lossless]

theorem grouped_leftover (hheld : ∀ t ∈ held, t.kind ≠ .endOfInput) (next : Option Token) :
    Grouped held.reverse (leftover held next) := by
  cases held with
  | nil => exact grouped_nil
  | cons t held =>
      have hrun : ∀ u ∈ (t :: held).reverse, u.kind ≠ .endOfInput :=
        fun u hu => hheld u (List.mem_reverse.mp hu)
      have hone := grouped_nil.cons (by simp) hrun next
      rwa [List.append_nil] at hone

/-- **The groups are what is held and the tokens up to the first end, and no other.**  The
induction is on the tokens, with the group that is held. -/
theorem grouped_groupsFrom (tokens : List Token) : ∀ (depth : Nat) (held : List Token),
    (∀ t ∈ held, t.kind ≠ .endOfInput) →
      Grouped (held.reverse ++ tokens.takeWhile (·.kind ≠ .endOfInput))
        (groupsFrom depth held tokens) := by
  induction tokens with
  | nil =>
      intro depth held hheld
      rw [groupsFrom_nil, List.takeWhile_nil, List.append_nil]
      exact grouped_leftover hheld none
  | cons t rest ih =>
      intro depth held hheld
      by_cases ht : t.kind = .endOfInput
      · rw [groupsFrom_end ht, List.takeWhile_cons_of_neg (by simp [ht]), List.append_nil]
        exact grouped_leftover hheld (some t)
      · have hmore : ∀ u ∈ t :: held, u.kind ≠ .endOfInput := List.forall_mem_cons.mpr ⟨ht, hheld⟩
        have hsplit : held.reverse ++ (t :: rest).takeWhile (·.kind ≠ .endOfInput)
            = (t :: held).reverse ++ rest.takeWhile (·.kind ≠ .endOfInput) := by
          rw [List.takeWhile_cons_of_pos (by simp [ht])]
          simp
        rw [hsplit]
        by_cases hopen : t.kind = .quote ∨ nesting depth t ≠ 0
        · rw [groupsFrom_hold ht hopen]
          exact ih _ _ hmore
        · obtain ⟨hquote, hclosed⟩ := not_or.mp hopen
          rw [groupsFrom_close ht hquote (not_not.mp hclosed)]
          exact (ih 0 [] (by simp)).cons (by simp)
            (fun u hu => hmore u (List.mem_reverse.mp hu)) rest.head?

end Token

/-! ### An expression is a group -/

namespace Grammar

open Token

/-- While a parenthesis is open the tokens are held, whatever follows them. -/
def Held (ts : List Token) : Prop :=
  ∀ (depth : Nat) (held rest : List Token),
    groupsFrom (depth + 1) held (ts ++ rest) = groupsFrom (depth + 1) (ts.reverse ++ held) rest

/-- One more token in front, if it closes nothing. -/
theorem Held.cons {t : Token} {ts : List Token} (h : Held ts) (ht : t.kind ≠ .endOfInput)
    (hdepth : ∀ depth, nesting depth t = depth) : Held (t :: ts) := by
  intro depth held rest
  rw [List.cons_append, groupsFrom_hold ht (.inr (by rw [hdepth]; omega)), hdepth, h]
  simp

/-- A whole group in front. -/
theorem Held.group {l r : Token} {ts us : List Token} (hts : Held ts) (hus : Held us)
    (hl : l.kind = .leftParen) (hr : r.kind = .rightParen) : Held (l :: (ts ++ r :: us)) := by
  intro depth held rest
  have hopened : nesting (depth + 1) l = depth + 1 + 1 := nesting_leftParen hl _
  have hclosed : nesting (depth + 1 + 1) r = depth + 1 := nesting_rightParen hr _
  have hsplit : l :: (ts ++ r :: us) ++ rest = l :: (ts ++ r :: (us ++ rest)) := by simp
  rw [hsplit, groupsFrom_hold (by simp [hl]) (.inr (by omega)), hopened, hts,
    groupsFrom_hold (by simp [hr]) (.inr (by omega)), hclosed, hus]
  simp

theorem ne_end_of_isAtom {t : Token} (ht : t.kind.isAtom = true) :
    t.kind ≠ .endOfInput ∧ t.kind ≠ .quote := by
  refine ⟨?_, ?_⟩
  · intro hk
    rw [hk] at ht
    cases ht
  · intro hk
    rw [hk] at ht
    cases ht

/-- **While a parenthesis is open, items are held.** -/
theorem DerivesItems.held {ts : List Token} {vs : List Value} (h : DerivesItems ts vs) :
    Held ts := by
  refine DerivesItems.induction (P := fun ts _ => Held ts) ⟨?_, ?_, ?_, ?_⟩ h
  · intro depth held rest
    rfl
  · intro t us vs ht hus
    exact hus.cons (ne_end_of_isAtom ht).1 (nesting_atom ht)
  · intro l r ts us vs ws hl hr hts hus
    exact hts.group hus hl hr
  · intro q l r ts us vs ws hq hl hr hts hus
    exact (hts.group hus hl hr).cons (by simp [hq]) (nesting_quote hq)

/-- Items in parentheses end a group. -/
theorem groupsFrom_parentheses {l r : Token} {ts : List Token} {vs : List Value}
    (hl : l.kind = .leftParen) (items : DerivesItems ts vs) (hr : r.kind = .rightParen)
    (held rest : List Token) :
    groupsFrom 0 held (l :: (ts ++ r :: rest))
      = (held.reverse ++ l :: (ts ++ [r]) ++ [groupEnd rest.head?]) :: groups rest := by
  have hopened : nesting 0 l = 0 + 1 := nesting_leftParen hl 0
  rw [groupsFrom_hold (by simp [hl]) (.inr (by omega)), hopened, items.held,
    groupsFrom_close (by simp [hr]) (by simp [hr]) (nesting_rightParen hr (0 + 1))]
  simp [groups]

/-- **An expression is a group**, whatever follows it. -/
theorem groups_expression {ts : List Token} {v : Value} (h : DerivesExp ts v) (hne : ts ≠ [])
    (rest : List Token) : groups (ts ++ rest) = (ts ++ [groupEnd rest.head?]) :: groups rest := by
  cases h with
  | empty => exact absurd rfl hne
  | atom h =>
      obtain ⟨ht⟩ := h
      obtain ⟨hend, hquote⟩ := ne_end_of_isAtom ht
      exact groupsFrom_close hend hquote (nesting_atom ht 0)
  | quoted h =>
      obtain ⟨hq, hl, items, hr⟩ := h
      rw [List.cons_append, List.cons_append, List.cons_append, List.append_assoc,
        List.singleton_append, groups, groupsFrom_hold (by simp [hq]) (.inl hq),
        nesting_quote hq, groupsFrom_parentheses hl items hr]
      simp
  | call h =>
      obtain ⟨hl, hs, items, hr⟩ := h
      have hatom : DerivesAtom [_] _ := .token (by rw [hs]; rfl)
      have hitems := DerivesItems.more (.atom hatom) items
      rw [List.cons_append, List.cons_append, List.append_assoc, List.singleton_append, groups]
      refine (groupsFrom_parentheses hl hitems hr [] rest).trans ?_
      simp

/-! ### Grouping and reading -/

/-- **Cutting a stream into groups loses nothing and agrees with the parser.**  Every group is a
run of tokens with one end behind it, and without their ends the groups are the tokens in front
of the stream's first end; and a text with a token in it reads as a value exactly if it is one
group and that group is parsed to the value. -/
theorem groups_agree_with_read :
    (∀ tokens, Grouped (tokens.takeWhile (·.kind ≠ .endOfInput)) (groups tokens)) ∧
      ∀ source text tokens, tokenize source text = .ok tokens →
        (∃ t ∈ tokens, t.kind ≠ .endOfInput) →
        ∀ v, read source text = .ok v ↔
          ∃ group, groups tokens = [group] ∧ (parse group).outcome = .ok v := by
  have hgrouped : ∀ tokens, Grouped (tokens.takeWhile (·.kind ≠ .endOfInput)) (groups tokens) :=
    fun tokens => grouped_groupsFrom tokens 0 [] (by simp)
  refine ⟨hgrouped, ?_⟩
  intro source text tokens htokens hsome v
  obtain ⟨ts, e, rfl, he, hts⟩ := tokenize_ends htokens
  have hread : read source text = (parse (ts ++ [e])).outcome := by rw [read, htokens]
  rw [hread]
  constructor
  · intro h
    have hexp := derivesExp_of_parse hts he h
    have hne : ts ≠ [] := by
      rintro rfl
      obtain ⟨t, ht, hk⟩ := hsome
      obtain rfl : t = e := by simpa using ht
      exact hk he
    refine ⟨ts ++ [groupEnd (some e)], ?_, parse_of_derivesExp rfl hexp⟩
    have hnone : groups [e] = [] := groupsFrom_end he
    rw [groups_expression hexp hne [e], hnone]
    rfl
  · rintro ⟨group, hgroup, hparse⟩
    have hall := hgrouped (ts ++ [e])
    rw [hgroup] at hall
    obtain ⟨run, e', rfl, -, hrun, he'⟩ := hall.ended group List.mem_cons_self
    -- the only group has all the tokens, so that the one is an expression if the other is
    have hlossless : run = ts := by
      have h := hall.lossless
      rw [List.takeWhile_append_of_pos (by simpa using hts),
        List.takeWhile_cons_of_neg (by simp [he])] at h
      simpa using h
    subst hlossless
    exact parse_of_derivesExp he (derivesExp_of_parse hrun he' hparse)

/-- The tokens of the call `(f)`, without the end. -/
def plainCall : List Token :=
  [⟨.leftParen, [40], .nil, ⟨[], 1, 1⟩⟩, ⟨.symbol, [102], .symbol [102], ⟨[], 1, 2⟩⟩,
    ⟨.rightParen, [41], .nil, ⟨[], 1, 3⟩⟩]

/-- The call `(f)` is one group and is read; with a parenthesis too many it is two groups, and
then it is not. -/
theorem groups_agree_overClosed :
    ((groups (plainCall ++ [.endOfInput ⟨[], 1, 4⟩])).length = 1 ∧
      read [] (utf8 "(f)") = .ok (.list [.symbol (utf8 "f")])) ∧
    (groups (plainCall ++ [⟨.rightParen, [41], .nil, ⟨[], 1, 4⟩⟩, .endOfInput ⟨[], 1, 5⟩])).length
      = 2 ∧ ∀ v, read [] (utf8 "(f))") ≠ .ok v := by
  refine ⟨⟨by decide, ?_⟩, by decide, ?_⟩
  · have htokens : tokenize [] (utf8 "(f)") = .ok (plainCall ++ [.endOfInput ⟨[], 1, 4⟩]) := by
      cbv
    refine (groups_agree_with_read.2 [] _ _ htokens (by decide) _).mpr ⟨_, rfl, by cbv⟩
  · have htokens : tokenize [] (utf8 "(f))") = .ok (plainCall ++
        [⟨.rightParen, [41], .nil, ⟨[], 1, 4⟩⟩, .endOfInput ⟨[], 1, 5⟩]) := by
      cbv
    intro v hread
    obtain ⟨group, hone, -⟩ :=
      (groups_agree_with_read.2 [] _ _ htokens (by decide) v).mp hread
    have htwo : (groups (plainCall ++
        [⟨.rightParen, [41], .nil, ⟨[], 1, 4⟩⟩, .endOfInput ⟨[], 1, 5⟩])).length = 2 := by decide
    rw [hone] at htwo
    simp at htwo

end Grammar

end TinyLisp
