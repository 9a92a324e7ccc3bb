/-
The grammar as a relation.

A derivation relates a sequence of tokens to the value it stands for, one relation
for each nonterminal and one constructor for each alternative:

    exp         := atom | quoted_list | call
    quoted_list := QUOTE list
    list        := LPAREN items RPAREN
    items       := item items | ε
    item        := atom | list | quoted_list | call
    call        := LPAREN SYMBOL items RPAREN

An atom is a single token and stands for the value of that token; the empty atom is
an alternative of `exp` alone, where the whole text is empty.  Nothing here mentions
stacks, lookahead or the order in which a parser looks at the tokens.

The grammar is ambiguous: a call is also a list whose first item is a symbol.  Both
readings have the same value, so inside a group only three things can stand, an
atom, a group and a quoted group, and `DerivesItems.induction` is the induction over
exactly these.
-/
import TinyLisp.Grammar.Parser

namespace TinyLisp.Grammar

/-- `atom := SYMBOL | TRUE | FALSE | NUMBER | TEXT | NIL`, with the value of the token. -/
inductive DerivesAtom : List Token → Value → Prop
  | token {t : Token} (h : t.kind.isAtom = true) : DerivesAtom [t] t.value

mutual

/-- `list := LPAREN items RPAREN`, with the list of the items' values. -/
inductive DerivesList : List Token → Value → Prop
  | group {l r : Token} {ts : List Token} {vs : List Value} (hl : l.kind = .leftParen)
      (items : DerivesItems ts vs) (hr : r.kind = .rightParen) :
      DerivesList (l :: ts ++ [r]) (.list vs)

/-- `quoted_list := QUOTE list`, with the two-element list of `quote` and the list. -/
inductive DerivesQuoted : List Token → Value → Prop
  | quote {q : Token} {ts : List Token} {v : Value} (hq : q.kind = .quote)
      (list : DerivesList ts v) : DerivesQuoted (q :: ts) (.list [.symbol quoteName, v])

/-- `call := LPAREN SYMBOL items RPAREN`, with the symbol as the first element. -/
inductive DerivesCall : List Token → Value → Prop
  | call {l s r : Token} {ts : List Token} {vs : List Value} (hl : l.kind = .leftParen)
      (hs : s.kind = .symbol) (items : DerivesItems ts vs) (hr : r.kind = .rightParen) :
      DerivesCall (l :: s :: ts ++ [r]) (.list (s.value :: vs))

/-- `item := atom | list | quoted_list | call`. -/
inductive DerivesItem : List Token → Value → Prop
  | atom {ts : List Token} {v : Value} (h : DerivesAtom ts v) : DerivesItem ts v
  | list {ts : List Token} {v : Value} (h : DerivesList ts v) : DerivesItem ts v
  | quoted {ts : List Token} {v : Value} (h : DerivesQuoted ts v) : DerivesItem ts v
  | call {ts : List Token} {v : Value} (h : DerivesCall ts v) : DerivesItem ts v

/-- `items := item items | ε`, with the values of the items in order. -/
inductive DerivesItems : List Token → List Value → Prop
  | empty : DerivesItems [] []
  | more {ts us : List Token} {v : Value} {vs : List Value} (item : DerivesItem ts v)
      (items : DerivesItems us vs) : DerivesItems (ts ++ us) (v :: vs)

end

/-- `exp := atom | quoted_list | call`, and the empty text, which stands for `nil`. -/
inductive DerivesExp : List Token → Value → Prop
  | empty : DerivesExp [] .nil
  | atom {ts : List Token} {v : Value} (h : DerivesAtom ts v) : DerivesExp ts v
  | quoted {ts : List Token} {v : Value} (h : DerivesQuoted ts v) : DerivesExp ts v
  | call {ts : List Token} {v : Value} (h : DerivesCall ts v) : DerivesExp ts v

/-! ### Induction over what stands in a group -/

/-- A property of items that holds of none and is kept by everything that may come first. -/
structure KeptByItems (P : List Token → List Value → Prop) : Prop where
  /-- It holds where nothing stands. -/
  empty : P [] []
  /-- It is kept by an atom. -/
  atom : ∀ {t us vs}, t.kind.isAtom = true → P us vs → P (t :: us) (t.value :: vs)
  /-- It is kept by a group, if it also holds inside. -/
  group : ∀ {l r ts us vs ws}, l.kind = .leftParen → r.kind = .rightParen →
    P ts vs → P us ws → P (l :: (ts ++ r :: us)) (.list vs :: ws)
  /-- It is kept by a group behind a quote, if it also holds inside. -/
  quoted : ∀ {q l r ts us vs ws}, q.kind = .quote → l.kind = .leftParen →
    r.kind = .rightParen → P ts vs → P us ws →
    P (q :: l :: (ts ++ r :: us)) (.list [.symbol quoteName, .list vs] :: ws)

section Induction

variable {P : List Token → List Value → Prop}

mutual

private theorem list_induction (kept : KeptByItems P) {ts us : List Token} {v : Value}
    {ws : List Value} (hus : P us ws) : DerivesList ts v → P (ts ++ us) (v :: ws)
  | .group hl items hr => by
      have hts := DerivesItems.induction kept items
      simpa using kept.group hl hr hts hus

private theorem quoted_induction (kept : KeptByItems P) {ts us : List Token} {v : Value}
    {ws : List Value} (hus : P us ws) : DerivesQuoted ts v → P (ts ++ us) (v :: ws)
  | .quote hq (.group hl items hr) => by
      have hts := DerivesItems.induction kept items
      simpa using kept.quoted hq hl hr hts hus

private theorem call_induction (kept : KeptByItems P) {ts us : List Token} {v : Value}
    {ws : List Value} (hus : P us ws) : DerivesCall ts v → P (ts ++ us) (v :: ws)
  | .call hl hs items hr => by
      have hts := kept.atom (by rw [hs]; rfl) (DerivesItems.induction kept items)
      simpa using kept.group hl hr hts hus

private theorem item_induction (kept : KeptByItems P) {ts us : List Token} {v : Value}
    {ws : List Value} (hus : P us ws) : DerivesItem ts v → P (ts ++ us) (v :: ws)
  | .atom h => by
      obtain ⟨h⟩ := h
      exact kept.atom h hus
  | .list h => list_induction kept hus h
  | .quoted h => quoted_induction kept hus h
  | .call h => call_induction kept hus h

/-- Items are atoms, groups and quoted groups in a row.  A call needs no case of its own,
being a group whose first item is a symbol. -/
theorem DerivesItems.induction (kept : KeptByItems P) {ts : List Token} {vs : List Value} :
    DerivesItems ts vs → P ts vs
  | .empty => kept.empty
  | .more item items => item_induction kept (DerivesItems.induction kept items) item

end

end Induction

end TinyLisp.Grammar
