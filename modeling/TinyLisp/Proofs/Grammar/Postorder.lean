/-
The productions of a parse, from the bottom up.

A parse lists the productions it reduces while groups are still open, so the list of a
run that has stopped somewhere is that of no tree.  This file says what the list of a
whole expression is by recursion on its tree: a group lists its elements, each with the
production that makes it an item, then the end of the items, one more production for
every element, and then its own form.

A tree keeps the tokens it is made of.  `Tree.runs` follows it through the automaton: in
an open group its tokens add its value to the group and its listing to the productions,
whatever lies below and whatever follows.  What is accepted has a tree
(`DerivesExp.exists_tree`), because the grammar derives it.

A stream is parsed up to its first end.  Tokens behind that end are not looked at, unless
nothing stands in front of it (`parseFrom_upTo_end`).
-/
import Mathlib.Data.List.TakeWhile
import TinyLisp.Proofs.Grammar.Parsing

namespace TinyLisp.Grammar

/-! ### Trees -/

/-- An atom or a group of the grammar, with the tokens it is made of. -/
inductive Tree where
  /-- A single token. -/
  | atom (t : Token) (h : t.kind.isAtom = true)
  /-- Elements in parentheses. -/
  | list (opening : Token) (elements : List Tree) (closing : Token)
      (hl : opening.kind = .leftParen) (hr : closing.kind = .rightParen)
  /-- Elements in parentheses behind a quote. -/
  | quoted (quote opening : Token) (elements : List Tree) (closing : Token)
      (hq : quote.kind = .quote) (hl : opening.kind = .leftParen)
      (hr : closing.kind = .rightParen)

namespace Tree

mutual

/-- The tokens of a tree, in order. -/
def tokens : Tree → List Token
  | .atom t _ => [t]
  | .list l elements r _ _ => l :: (tokensOf elements ++ [r])
  | .quoted q l elements r _ _ _ => q :: l :: (tokensOf elements ++ [r])

/-- The tokens of several trees in a row. -/
def tokensOf : List Tree → List Token
  | [] => []
  | x :: rest => tokens x ++ tokensOf rest

end

mutual

/-- The value of a tree. -/
def value : Tree → Value
  | .atom t _ => t.value
  | .list _ elements _ _ _ => .list (valuesOf elements)
  | .quoted _ _ elements _ _ _ _ => .list [.symbol quoteName, .list (valuesOf elements)]

/-- The values of several trees in a row. -/
def valuesOf : List Tree → List Value
  | [] => []
  | x :: rest => value x :: valuesOf rest

end

/-- The first of the elements is a symbol, so that they make a call. -/
def headedBySymbol : List Tree → Bool
  | .atom t _ :: _ => t.kind = .symbol
  | _ => false

/-- The production that makes a tree an item. -/
def asItem : Tree → Production
  | .atom _ _ => .itemAtom
  | .list _ elements _ _ _ => if headedBySymbol elements then .itemCall else .itemList
  | .quoted .. => .itemQuoted

/-- The production that makes a tree an expression; a list has to be a call for that. -/
def asExpression : Tree → Production
  | .atom _ _ => .expAtom
  | .list .. => .expCall
  | .quoted .. => .expQuoted

/-- The productions of an atom; a truth value is one before it is an atom. -/
def atomListing : TokenKind → List Production
  | .true => [.boolTrue, .atomBool]
  | .false => [.boolFalse, .atomBool]
  | .symbol => [.atomSymbol]
  | .number => [.atomNumber]
  | .text => [.atomText]
  | _ => [.atomNil]

/-- The productions that gather elements to items: the end first, then one for each. -/
def gathering (elements : List Tree) : List Production :=
  .itemsEmpty :: List.replicate elements.length .itemsMore

mutual

/-- The productions of a tree in postorder. -/
def listing : Tree → List Production
  | .atom t _ => atomListing t.kind
  | .list _ elements _ _ _ =>
    listingOf elements ++ gathering elements ++
      [if headedBySymbol elements then .call else .list]
  | .quoted _ _ elements _ _ _ _ =>
    listingOf elements ++ gathering elements ++ [.list, .quotedList]

/-- The productions of several items in a row. -/
def listingOf : List Tree → List Production
  | [] => []
  | x :: rest => listing x ++ asItem x :: listingOf rest

end

end Tree

/-! ### Steps with their productions -/

section Steps

variable {final : Token} {below : List Group} {g outer : Group} {b : Bool} {rest : List Token}

@[simp] theorem Parse.after_after (first second : List Production) (p : Parse) :
    (p.after second).after first = p.after (first ++ second) := by
  simp [Parse.after]

@[simp] theorem Parse.after_nil (p : Parse) : p.after [] = p := rfl

theorem Parse.finish_of_end {v : Value} {next : Token} (h : next.kind = .endOfInput) :
    Parse.finish v next = ⟨[], .ok v⟩ := if_pos h

theorem atomReductions_eq {kind : TokenKind} (h : kind.isAtom = true) :
    atomReductions kind = Tree.atomListing kind := by
  cases kind <;> first | rfl | cases h

theorem parseFrom_push_atom {t : Token} (ht : t.kind.isAtom = true) :
    parseFrom final (g :: below) b (t :: rest)
      = (parseFrom final (g.push t.value :: below) false rest).after
          (Tree.atomListing t.kind ++ [.itemAtom]) := by
  rw [← atomReductions_eq ht]
  obtain ⟨kind, _, _, _⟩ := t
  cases kind <;> first | rfl | cases ht

theorem parseFrom_single_atom {t : Token} (ht : t.kind.isAtom = true) :
    parseFrom final [] b (t :: rest)
      = (Parse.finish t.value (rest.headD final)).after
          (Tree.atomListing t.kind ++ [.expAtom]) := by
  rw [← atomReductions_eq ht]
  obtain ⟨kind, _, _, _⟩ := t
  cases kind <;> first | rfl | cases ht

theorem parseFrom_reduce_item {r : Token} (hr : r.kind = .rightParen) :
    parseFrom final (g :: outer :: below) b (r :: rest)
      = (parseFrom final (outer.push (g.form.value g.items) :: below) false rest).after
          (g.reductions ++ [g.form.asItem]) := by
  obtain ⟨_, _, _, _⟩ := r
  cases hr
  rfl

theorem parseFrom_reduce_expression {r : Token} (hr : r.kind = .rightParen) :
    parseFrom final [g] b (r :: rest)
      = (Parse.finish (g.form.value g.items) (rest.headD final)).after
          (g.reductions ++ [g.form.asExpression]) := by
  obtain ⟨_, _, _, _⟩ := r
  cases hr
  rfl

end Steps

/-! ### A tree in the automaton -/

namespace Tree

variable {final r : Token} {elements : List Tree}

theorem length_valuesOf (elements : List Tree) :
    (valuesOf elements).length = elements.length := by
  induction elements with
  | nil => rfl
  | cons x rest ih => rw [valuesOf, List.length_cons, ih, List.length_cons]

/-- The token behind a parenthesis tells a call from a bare list. -/
theorem formOf_tokensOf (elements : List Tree) (hr : r.kind = .rightParen) (rest : List Token) :
    formOf false ((tokensOf elements ++ r :: rest).headD final)
      = if headedBySymbol elements then .call else .bare := by
  cases elements with
  | nil => simp [tokensOf, formOf, headedBySymbol, hr]
  | cons x elements =>
      cases x with
      | atom t h => simp [tokensOf, tokens, formOf, headedBySymbol]
      | list l inner r' hl hr' => simp [tokensOf, tokens, formOf, headedBySymbol, hl]
      | quoted q l inner r' hq hl hr' => simp [tokensOf, tokens, formOf, headedBySymbol, hq]

theorem reductions_extend (p : Place) (form : Form) (elements : List Tree) :
    ((Group.mk p form []).extend (valuesOf elements)).reductions
      = gathering elements ++ form.reductions := by
  simp [Group.reductions, gathering, length_valuesOf]

/-- In an open group the tokens of the elements add their values to the group and their
productions to the parse. -/
def ElementsRun (final : Token) (elements : List Tree) : Prop :=
  ∀ (g : Group) (below : List Group) (rest : List Token),
    parseFrom final (g :: below) false (tokensOf elements ++ rest)
      = (parseFrom final (g.extend (valuesOf elements) :: below) false rest).after
          (listingOf elements)

/-- A group that has been opened inside another one becomes an item of it. -/
theorem ElementsRun.item (h : ElementsRun final elements) (hr : r.kind = .rightParen)
    (p : Place) (form : Form) (g : Group) (below : List Group) (rest : List Token) :
    parseFrom final (⟨p, form, []⟩ :: g :: below) false (tokensOf elements ++ r :: rest)
      = (parseFrom final (g.push (form.value (valuesOf elements)) :: below) false rest).after
          (listingOf elements ++ gathering elements ++ form.reductions ++ [form.asItem]) := by
  rw [h, parseFrom_reduce_item hr, reductions_extend]
  simp

/-- A group that has been opened at the top level becomes the expression. -/
theorem ElementsRun.expression (h : ElementsRun final elements) (hr : r.kind = .rightParen)
    (p : Place) (form : Form) (rest : List Token) :
    parseFrom final [⟨p, form, []⟩] false (tokensOf elements ++ r :: rest)
      = (Parse.finish (form.value (valuesOf elements)) (rest.headD final)).after
          (listingOf elements ++ gathering elements ++ form.reductions ++
            [form.asExpression]) := by
  rw [h, parseFrom_reduce_expression hr, reductions_extend]
  simp

mutual

/-- **In an open group the tokens of a tree are one more item**, with the listing of the tree. -/
theorem runs (x : Tree) (g : Group) (below : List Group) (rest : List Token) :
    parseFrom final (g :: below) false (x.tokens ++ rest)
      = (parseFrom final (g.push x.value :: below) false rest).after
          (x.listing ++ [x.asItem]) := by
  match x with
  | .atom t h => exact parseFrom_push_atom h
  | .list l elements r hl hr =>
      have hsplit : (Tree.list l elements r hl hr).tokens ++ rest
          = l :: (tokensOf elements ++ r :: rest) := by simp [tokens]
      rw [hsplit, parseFrom_group hl, formOf_tokensOf elements hr,
        ElementsRun.item (runsOf elements) hr]
      cases hhead : headedBySymbol elements with
      | true => simp [value, listing, asItem, hhead, Form.value, Form.reductions, Form.asItem]
      | false => simp [value, listing, asItem, hhead, Form.value, Form.reductions, Form.asItem]
  | .quoted q l elements r hq hl hr =>
      have hsplit : (Tree.quoted q l elements r hq hl hr).tokens ++ rest
          = q :: l :: (tokensOf elements ++ r :: rest) := by simp [tokens]
      rw [hsplit, parseFrom_quote hq hl, ElementsRun.item (runsOf elements) hr]
      simp [value, listing, asItem, Form.value, Form.reductions, Form.asItem]

theorem runsOf (elements : List Tree) : ElementsRun final elements := by
  match elements with
  | [] =>
      intro g below rest
      rfl
  | x :: elements =>
      intro g below rest
      rw [tokensOf, List.append_assoc, runs x, runsOf elements]
      simp [valuesOf, listingOf]

end

/-- The tree may stand at the top level. -/
def IsExpression : Tree → Prop
  | .list _ elements _ _ _ => headedBySymbol elements = true
  | _ => True

/-- **At the top level the tokens of a tree are the expression**, with the listing of the tree. -/
theorem runs_expression {x : Tree} (hx : x.IsExpression) (rest : List Token) :
    parseFrom final [] false (x.tokens ++ rest)
      = (Parse.finish x.value (rest.headD final)).after (x.listing ++ [x.asExpression]) := by
  cases x with
  | atom t h => exact parseFrom_single_atom h
  | list l elements r hl hr =>
      have hhead : headedBySymbol elements = true := hx
      have hsplit : (Tree.list l elements r hl hr).tokens ++ rest
          = l :: (tokensOf elements ++ r :: rest) := by simp [tokens]
      rw [hsplit, parseFrom_top hl, formOf_tokensOf elements hr, if_pos hhead, if_neg nofun,
        (runsOf elements).expression hr]
      simp [value, listing, asExpression, hhead, Form.value, Form.reductions, Form.asExpression]
  | quoted q l elements r hq hl hr =>
      have hsplit : (Tree.quoted q l elements r hq hl hr).tokens ++ rest
          = q :: l :: (tokensOf elements ++ r :: rest) := by simp [tokens]
      rw [hsplit, parseFrom_quote hq hl, (runsOf elements).expression hr]
      simp [value, listing, asExpression, Form.value, Form.reductions, Form.asExpression]

/-- A bare list is rejected at the top level. -/
theorem isExpression_of_accepted {x : Tree} {v : Value}
    (h : (parseFrom final [] false x.tokens).outcome = .ok v) : x.IsExpression := by
  cases x with
  | list l elements r hl hr =>
      show headedBySymbol elements = true
      rw [tokens, parseFrom_top hl, formOf_tokensOf elements hr []] at h
      by_cases hhead : headedBySymbol elements = true
      · exact hhead
      · rw [if_neg hhead, if_pos rfl] at h
        cases h
  | _ => trivial

end Tree

/-! ### What is derived has a tree -/

theorem DerivesItems.exists_trees {ts : List Token} {vs : List Value} (h : DerivesItems ts vs) :
    ∃ elements, Tree.tokensOf elements = ts := by
  refine DerivesItems.induction (P := fun ts _ => ∃ elements, Tree.tokensOf elements = ts)
    ⟨?_, ?_, ?_, ?_⟩ h
  · exact ⟨[], rfl⟩
  · rintro t us vs ht ⟨rest, rfl⟩
    exact ⟨.atom t ht :: rest, rfl⟩
  · rintro l r ts us vs ws hl hr ⟨inner, rfl⟩ ⟨rest, rfl⟩
    exact ⟨.list l inner r hl hr :: rest, by simp [Tree.tokensOf, Tree.tokens]⟩
  · rintro q l r ts us vs ws hq hl hr ⟨inner, rfl⟩ ⟨rest, rfl⟩
    exact ⟨.quoted q l inner r hq hl hr :: rest, by simp [Tree.tokensOf, Tree.tokens]⟩

theorem DerivesExp.exists_tree {ts : List Token} {v : Value} (h : DerivesExp ts v)
    (hne : ts ≠ []) : ∃ tree : Tree, tree.tokens = ts := by
  cases h with
  | empty => exact absurd rfl hne
  | atom h =>
      obtain ⟨ht⟩ := h
      exact ⟨.atom _ ht, rfl⟩
  | quoted h =>
      obtain ⟨hq, hl, items, hr⟩ := h
      obtain ⟨elements, rfl⟩ := items.exists_trees
      exact ⟨.quoted _ _ elements _ hq hl hr, by simp [Tree.tokens]⟩
  | call h =>
      obtain ⟨hl, hs, items, hr⟩ := h
      obtain ⟨elements, rfl⟩ := items.exists_trees
      exact ⟨.list _ (.atom _ (by rw [hs]; rfl) :: elements) _ hl hr,
        by simp [Tree.tokens, Tree.tokensOf]⟩

/-! ### The first end of a stream -/

/-- Tokens behind an end are not looked at, unless that end is the first thing to be parsed. -/
theorem parseFrom_upTo_end {final e : Token} (he : e.kind = .endOfInput) (behind : List Token)
    (ts : List Token) : ∀ (stack : List Group) (b : Bool), stack ≠ [] ∨ ts ≠ [] →
      parseFrom final stack b (ts ++ e :: behind) = parseFrom e stack b ts := by
  have hnext : ∀ us : List Token, (us ++ e :: behind).headD final = us.headD e := by
    intro us
    cases us with
    | nil => rfl
    | cons u us => rfl
  induction ts with
  | nil =>
      intro stack b hopen
      obtain ⟨g, below, rfl⟩ := List.exists_cons_of_ne_nil (hopen.resolve_right (by simp))
      rw [List.nil_append, parseFrom.eq_def]
      simp only [he]
      rfl
  | cons t rest ih =>
      intro stack b _
      have hcons : ∀ (g : Group) (below : List Group) (b : Bool),
          parseFrom final (g :: below) b (rest ++ e :: behind)
            = parseFrom e (g :: below) b rest :=
        fun g below b => ih _ b (.inl (by simp))
      -- a quote leaves the stack as it is, but what follows it is a parenthesis and not the end
      have hquoted : (rest.headD e).kind = .leftParen →
          parseFrom final stack true (rest ++ e :: behind) = parseFrom e stack true rest := by
        intro hl
        obtain ⟨l, us, rfl, -⟩ := eq_cons_of_next he (by decide) hl
        exact ih stack true (.inr (by simp))
      rw [List.cons_append, parseFrom.eq_def, parseFrom.eq_def e]
      simp only [hnext, hcons]
      cases t.kind with
      | quote => exact ite_congr rfl hquoted fun _ => rfl
      | _ => rfl

/-- An accepted stream is parsed like the tokens in front of its first end. -/
theorem parse_eq_upTo_end {tokens : List Token} {v : Value}
    (h : (parse tokens).outcome = .ok v) :
    ∃ e, e.kind = .endOfInput ∧
      parse tokens = parseFrom e [] false (tokens.takeWhile (·.kind ≠ .endOfInput)) := by
  have hsplit := List.takeWhile_append_dropWhile (p := (·.kind ≠ .endOfInput)) (l := tokens)
  have hhead := List.head?_dropWhile_not (·.kind ≠ .endOfInput) tokens
  have hfinal := streamEnd_kind tokens
  unfold parse at h ⊢
  generalize streamEnd tokens = final at h hfinal ⊢
  generalize tokens.takeWhile (·.kind ≠ .endOfInput) = ts at hsplit ⊢
  generalize tokens.dropWhile (·.kind ≠ .endOfInput) = rest at hsplit hhead
  subst hsplit
  cases rest with
  | nil => exact ⟨final, hfinal, by rw [List.append_nil]⟩
  | cons e behind =>
      have he : e.kind = .endOfInput := by simpa using hhead
      refine ⟨e, he, ?_⟩
      by_cases hts : ts = []
      · -- nothing stands in front of the end, so the next token has to be an end as well
        subst hts
        have hstop : parseFrom final [] false ([] ++ e :: behind)
            = (Parse.finish .nil (behind.headD final)).after [.atomEmpty, .expAtom] := by
          rw [List.nil_append, parseFrom.eq_def]
          simp only [he]
          rfl
        rw [hstop] at h ⊢
        obtain ⟨hnext, -⟩ := Parse.finish_eq_ok.mp h
        rw [parseFrom_nil, Parse.finish_of_end hnext, Parse.finish_of_end he]
      · exact parseFrom_upTo_end he behind ts [] false (.inr hts)

/-! ### The listing of a parse -/

/-- **The productions of a parse are those of its tree, in postorder.**  Wherever a stream is
accepted, the tokens in front of its first end are an expression or nothing at all; and the
productions are the listing of every tree that these tokens make, with the production that
makes it an expression, or those of the empty text. -/
theorem parse_reductions_postorder {tokens : List Token} {v : Value}
    (h : (parse tokens).outcome = .ok v) :
    let ts := tokens.takeWhile (·.kind ≠ .endOfInput)
    (ts = [] → (parse tokens).reductions = [.atomEmpty, .expAtom]) ∧
      (ts ≠ [] → ∃ tree : Tree, tree.tokens = ts) ∧
      ∀ tree : Tree, tree.tokens = ts →
        (parse tokens).reductions = tree.listing ++ [tree.asExpression] ∧ tree.value = v := by
  intro ts
  obtain ⟨e, he, hparse⟩ := parse_eq_upTo_end h
  change parse tokens = parseFrom e [] false ts at hparse
  rw [hparse] at h ⊢
  have hplain : ∀ t ∈ ts, t.kind ≠ .endOfInput := by
    intro t ht
    simpa using List.mem_takeWhile_imp ht
  refine ⟨?_, ?_, ?_⟩
  · intro hts
    rw [hts, parseFrom_nil, Parse.finish_of_end he]
    rfl
  · exact (derivesExp_of_parseFrom he hplain h).exists_tree
  · intro tree htree
    rw [← htree] at h ⊢
    have hruns : parseFrom e [] false (tree.tokens ++ [])
        = (Parse.finish tree.value e).after (tree.listing ++ [tree.asExpression]) :=
      Tree.runs_expression (Tree.isExpression_of_accepted h) []
    rw [List.append_nil, Parse.finish_of_end he] at hruns
    rw [hruns] at h ⊢
    exact ⟨List.append_nil _, Except.ok.inj h⟩

/-- The tree of `(f '(1) ())`. -/
def nestedTree : Tree :=
  .list ⟨.leftParen, [], .nil, .nowhere⟩
    [.atom ⟨.symbol, [], .symbol [102], .nowhere⟩ rfl,
      .quoted ⟨.quote, [], .nil, .nowhere⟩ ⟨.leftParen, [], .nil, .nowhere⟩
        [.atom ⟨.number, [], .int 1, .nowhere⟩ rfl] ⟨.rightParen, [], .nil, .nowhere⟩ rfl rfl rfl,
      .list ⟨.leftParen, [], .nil, .nowhere⟩ [] ⟨.rightParen, [], .nil, .nowhere⟩ rfl rfl]
    ⟨.rightParen, [], .nil, .nowhere⟩ rfl rfl

/-- It is listed element by element, though a parenthesis too many stands behind its end. -/
theorem parse_reductions_nestedCall :
    let tokens := nestedCall ++ [.endOfInput .nowhere, ⟨.rightParen, [], .nil, .nowhere⟩]
    (parse tokens).outcome = .ok nestedTree.value ∧
      (parse tokens).reductions =
        [.atomSymbol, .itemAtom,
          .atomNumber, .itemAtom, .itemsEmpty, .itemsMore, .list, .quotedList, .itemQuoted,
          .itemsEmpty, .list, .itemList,
          .itemsEmpty, .itemsMore, .itemsMore, .itemsMore, .call, .expCall] := by
  intro tokens
  have haccepted : (parse tokens).outcome = .ok nestedTree.value := rfl
  obtain ⟨-, -, hlisting⟩ := parse_reductions_postorder haccepted
  exact ⟨haccepted, (hlisting nestedTree rfl).1⟩

end TinyLisp.Grammar
